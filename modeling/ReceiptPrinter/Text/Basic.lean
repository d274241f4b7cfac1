namespace ReceiptPrinter

abbrev Text := List Char

/-- The characters with the Unicode property White_Space. -/
def isSpace (c : Char) : Bool :=
  let n := c.toNat
  9 ≤ n && n ≤ 13 || n == 0x20 || n == 0x85 || n == 0xa0 || n == 0x1680 ||
    0x2000 ≤ n && n ≤ 0x200a || n == 0x2028 || n == 0x2029 || n == 0x202f || n == 0x205f || n == 0x3000

namespace Text

/-- The pieces between separators: always one more piece than there are separators. -/
def splitOn (sep : Char → Bool) (t : Text) : List Text :=
  t.foldr (fun c pieces =>
    if sep c then [] :: pieces else (c :: pieces.headD []) :: pieces.tail) [[]]

theorem splitOn_cons (sep : Char → Bool) (c : Char) (t : Text) :
    splitOn sep (c :: t) =
      if sep c then [] :: splitOn sep t
      else (c :: (splitOn sep t).headD []) :: (splitOn sep t).tail := rfl

theorem splitOn_ne_nil (sep : Char → Bool) (t : Text) : splitOn sep t ≠ [] := by
  cases t with
  | nil => simp [splitOn]
  | cons c t => rw [splitOn_cons]; split <;> simp

theorem splitOn_append_cons {sep : Char → Bool} {c : Char} (h : sep c = true) (a b : Text) :
    splitOn sep (a ++ c :: b) = splitOn sep a ++ splitOn sep b := by
  induction a with
  | nil => simp [splitOn, h]
  | cons x a ih =>
    rw [List.cons_append, splitOn_cons, splitOn_cons, ih]
    obtain ⟨p, ps, hp⟩ := List.exists_cons_of_ne_nil (splitOn_ne_nil sep a)
    cases sep x <;> simp [hp]

def words (t : Text) : List Text :=
  (splitOn isSpace t).filter (! ·.isEmpty)

def trimStart (t : Text) : Text := t.dropWhile isSpace

def trimEnd (t : Text) : Text := (t.reverse.dropWhile isSpace).reverse

def trim (t : Text) : Text := trimEnd (trimStart t)

def isBlank (t : Text) : Bool := t.all isSpace

def startsBlank (t : Text) : Bool := t.head?.any isSpace

def lowerAscii (t : Text) : Text := t.map Char.toLower

def spaces (n : Nat) : Text := List.replicate n ' '

def joinLines (ls : List Text) : Text := (ls.map (· ++ ['\n'])).flatten

def numeral (n : Nat) : Text := Nat.toDigits 10 n

end Text

end ReceiptPrinter
