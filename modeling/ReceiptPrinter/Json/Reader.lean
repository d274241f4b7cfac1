import ReceiptPrinter.Json.Value
import ReceiptPrinter.Text.Utf8

namespace ReceiptPrinter.Json.Value

/-- An array or object that is still open, its finished parts in reverse. -/
inductive Frame where
  | array (done : List Value)
  | object (done : List Member) (key : Option Text)

def Frame.close : Frame → Value → Value
  | .array done, v => .array (v :: done).reverse
  | .object done key, v => .object ((key, v) :: done).reverse

def closeAll (v : Value) (stack : List Frame) : Value :=
  stack.foldl (fun v f => f.close v) v

mutual

def readValue (stack : List Frame) : List Lexeme → Value × List Lexeme
  | .null :: rest => readNext .null stack rest
  | .bool b :: rest => readNext (.bool b) stack rest
  | .number l :: rest => readNext (.number l) stack rest
  | .string s :: rest => readNext (.string s) stack rest
  | .arrayOpen :: .arrayClose :: rest => readNext (.array []) stack rest
  | .arrayOpen :: rest => readValue (.array [] :: stack) rest
  | .objectOpen :: .objectClose :: rest => readNext (.object []) stack rest
  | .objectOpen :: rest => readKey [] stack rest
  | _ => (closeAll .broken stack, [])

def readKey (done : List Member) (stack : List Frame) : List Lexeme → Value × List Lexeme
  | .string k :: .colon :: rest => readValue (.object done k :: stack) rest
  | .string k :: _ => (closeAll (.object ((k, .broken) :: done).reverse) stack, [])
  | _ => (closeAll (.object ((none, .broken) :: done).reverse) stack, [])

def readNext (v : Value) (stack : List Frame) (rest : List Lexeme) : Value × List Lexeme :=
  match stack with
  | [] => (v, rest)
  | .array done :: stack =>
    match rest with
    | .comma :: rest => readValue (.array (v :: done) :: stack) rest
    | .arrayClose :: rest => readNext (.array (v :: done).reverse) stack rest
    | _ => (closeAll (.array (.broken :: v :: done).reverse) stack, [])
  | .object done key :: stack =>
    match rest with
    | .comma :: rest => readKey ((key, v) :: done) stack rest
    | .objectClose :: rest => readNext (.object ((key, v) :: done).reverse) stack rest
    | _ => (closeAll (.object ((none, .broken) :: (key, v) :: done).reverse) stack, [])

end

def read (t : Text) : Value × List Lexeme := readValue [] (Lexeme.lex t)

/-- A text in place of bytes that are no character. Like them it can stand in a string, which then
has no value, and nowhere else. The letters keep the half of a surrogate pair from being joined,
and from a backslash in front. -/
def gapText : Text := "x\\ud800x".toList

def ofScalars (cs : List (Option Char)) : Text := cs.flatMap fun c => c.elim gapText ([·])

def readBytes (bytes : List UInt8) : Value × List Lexeme := read (ofScalars (Utf8.scalars bytes))

mutual

def lexemes : Value → List Lexeme
  | .null => [.null]
  | .bool b => [.bool b]
  | .number l => [.number l]
  | .string s => [.string s]
  | .array [] => [.arrayOpen, .arrayClose]
  | .array (v :: vs) => .arrayOpen :: (v.lexemes ++ lexemesItems vs)
  | .object [] => [.objectOpen, .objectClose]
  | .object ((k, v) :: ms) => .objectOpen :: .string k :: .colon :: (v.lexemes ++ lexemesMembers ms)
  | .broken => [.invalid]

def lexemesItems : List Value → List Lexeme
  | [] => [.arrayClose]
  | v :: vs => .comma :: (v.lexemes ++ lexemesItems vs)

def lexemesMembers : List Member → List Lexeme
  | [] => [.objectClose]
  | (k, v) :: ms => .comma :: .string k :: .colon :: (v.lexemes ++ lexemesMembers ms)

end

theorem readValue_arrayOpen (v : Value) (stack : List Frame) (rest : List Lexeme) :
    readValue stack (.arrayOpen :: (v.lexemes ++ rest)) =
      readValue (.array [] :: stack) (v.lexemes ++ rest) := by
  cases v with
  | array vs => cases vs <;> simp [lexemes, readValue]
  | object ms => rcases ms with _ | ⟨⟨k, v⟩, ms⟩ <;> simp [lexemes, readValue]
  | _ => simp [lexemes, readValue]

mutual

theorem readValue_lexemes : ∀ (v : Value) (stack : List Frame) (rest : List Lexeme),
    v.intact = true → readValue stack (v.lexemes ++ rest) = readNext v stack rest
  | .null, stack, rest, _ => by simp [lexemes, readValue]
  | .bool b, stack, rest, _ => by simp [lexemes, readValue]
  | .number l, stack, rest, _ => by simp [lexemes, readValue]
  | .string s, stack, rest, _ => by simp [lexemes, readValue]
  | .array [], stack, rest, _ => by simp [lexemes, readValue]
  | .array (v :: vs), stack, rest, h => by
    simp only [intact, intactItems, Bool.and_eq_true] at h
    simp only [lexemes, List.cons_append, List.append_assoc]
    rw [readValue_arrayOpen, readValue_lexemes v _ _ h.1, readNext_items vs [] v stack rest h.2]
    simp
  | .object [], stack, rest, _ => by simp [lexemes, readValue]
  | .object ((k, v) :: ms), stack, rest, h => by
    simp only [intact, intactMembers, Bool.and_eq_true] at h
    simp only [lexemes, List.cons_append, List.append_assoc, readValue, readKey]
    rw [readValue_lexemes v _ _ h.1, readNext_members ms [] k v stack rest h.2]
    simp
  | .broken, stack, rest, h => by simp [intact] at h

theorem readNext_items : ∀ (vs done : List Value) (v : Value) (stack : List Frame)
    (rest : List Lexeme), intactItems vs = true →
    readNext v (.array done :: stack) (lexemesItems vs ++ rest) =
      readNext (.array (done.reverse ++ v :: vs)) stack rest
  | [], done, v, stack, rest, _ => by
    simp only [lexemesItems, List.cons_append, List.nil_append]
    rw [readNext]
    simp
  | w :: vs, done, v, stack, rest, h => by
    simp only [intactItems, Bool.and_eq_true] at h
    simp only [lexemesItems, List.cons_append, List.append_assoc]
    rw [readNext, readValue_lexemes w _ _ h.1, readNext_items vs _ w stack rest h.2]
    simp

theorem readNext_members : ∀ (ms done : List Member) (key : Option Text) (v : Value)
    (stack : List Frame) (rest : List Lexeme), intactMembers ms = true →
    readNext v (.object done key :: stack) (lexemesMembers ms ++ rest) =
      readNext (.object (done.reverse ++ (key, v) :: ms)) stack rest
  | [], done, key, v, stack, rest, _ => by
    simp only [lexemesMembers, List.cons_append, List.nil_append]
    rw [readNext]
    simp
  | (k, w) :: ms, done, key, v, stack, rest, h => by
    simp only [intactMembers, Bool.and_eq_true] at h
    simp only [lexemesMembers, List.cons_append, List.append_assoc]
    rw [readNext, readKey, readValue_lexemes w _ _ h.1, readNext_members ms _ k w stack rest h.2]
    simp

end

end ReceiptPrinter.Json.Value
