import Mathlib.Data.Option.Basic
import Mathlib.Logic.Relation
import ReceiptPrinter.Proofs.Json.Members
import ReceiptPrinter.Proofs.Printout.Rereading

namespace ReceiptPrinter

open Json

theorem mapM_congr {α β : Type} {f g : α → Option β} {l : List α} (h : ∀ a ∈ l, f a = g a) :
    l.mapM f = l.mapM g := by
  induction l with
  | nil => rfl
  | cons a l ih =>
    rw [List.forall_mem_cons] at h
    rw [List.mapM_cons, List.mapM_cons, h.1, ih h.2]

theorem mapM_eq_none {α β : Type} {f : α → Option β} {a : α} {l : List α} (ha : a ∈ l) (h : f a = none) :
    l.mapM f = none := by
  obtain ⟨s, t, rfl⟩ := List.append_of_mem ha
  rw [List.mapM_append, List.mapM_cons, h]
  exact Option.bind_fun_none _

namespace Style

def knownKeys : List Text := keys ++ [scaleKey]

def scaleField? (ms : List Member) : Option Value :=
  match Value.withKey scaleKey ms with
  | [] => some .null
  | [scale] => some scale
  | _ => none

variable {nothing : Value → Bool} {ms ms' : List Member}

theorem ofValue?_object : ofValue? nothing (.object ms) =
    if Value.keyed ms then
      (keys.mapM (Value.only · ms)).bind fun parts => (scaleField? ms).bind (ofParts? nothing parts)
    else none := by
  rw [ofValue?, scaleField?]
  cases Value.keyed ms with
  | false => rfl
  | true =>
    rw [if_pos rfl]
    cases keys.mapM (Value.only · ms) with
    | none => rfl
    | some parts =>
      rcases Value.withKey scaleKey ms with _ | ⟨scale, _ | ⟨v, vs⟩⟩ <;> rfl

theorem scaleField?_congr (h : (Value.withKey scaleKey ms').Perm (Value.withKey scaleKey ms)) :
    scaleField? ms' = scaleField? ms := by
  rw [scaleField?, scaleField?]
  generalize Value.withKey scaleKey ms' = vs at h ⊢
  generalize Value.withKey scaleKey ms = us at h ⊢
  rcases us with _ | ⟨v, _ | ⟨w, ws⟩⟩
  · rw [h.eq_nil]
  · rw [List.perm_singleton.mp h]
  · have hl := h.length_eq
    rcases vs with _ | ⟨v', _ | ⟨w', ws'⟩⟩
    · cases hl
    · cases hl
    · rfl

theorem ofValue?_widened (h : Value.Widened knownKeys ms ms') :
    ofValue? nothing (.object ms') = ofValue? nothing (.object ms) := by
  have hkeys : keys.mapM (Value.only · ms') = keys.mapM (Value.only · ms) :=
    mapM_congr fun key hk => h.only_eq (List.mem_append_left _ hk)
  have hscale := scaleField?_congr (h.withKey_perm (List.mem_append_right _ (List.mem_singleton_self _)))
  rw [ofValue?_object, ofValue?_object, h.keyed_eq, hkeys, hscale]

/-- A key is missing or repeated, or the scale is repeated. -/
inductive Faulty : Value → Prop where
  | key {ms : List Member} {key : Text} (hk : key ∈ keys) (h : (Value.withKey key ms).length ≠ 1) :
    Faulty (.object ms)
  | scale {ms : List Member} (h : 1 < (Value.withKey scaleKey ms).length) : Faulty (.object ms)

theorem Faulty.ofValue?_eq_none {v : Value} (h : Faulty v) : ofValue? nothing v = none := by
  cases h with
  | key hk h =>
    rw [ofValue?_object, mapM_eq_none hk (Value.only_eq_none_iff.mpr h), Option.bind_none, ite_self]
  | @scale ms h =>
    have hs : scaleField? ms = none := by
      rw [scaleField?]
      generalize Value.withKey scaleKey ms = vs at h ⊢
      rcases vs with _ | ⟨v, _ | ⟨w, ws⟩⟩
      · exact absurd h (by decide)
      · exact absurd h (lt_irrefl 1)
      · rfl
    rw [ofValue?_object, hs]
    simp only [Option.bind_none, Option.bind_fun_none, ite_self]

/-- The members are put in another order, and others among them. -/
inductive Step : Value → Value → Prop where
  | members {ms ms' : List Member} (h : Value.Widened knownKeys ms ms') : Step (.object ms) (.object ms')

theorem Step.ofValue?_eq {v v' : Value} (h : Step v v') : ofValue? nothing v' = ofValue? nothing v := by
  cases h with
  | members h => exact ofValue?_widened h

/-- Reads the style of a token, which is kept as data before. -/
def kept (levels : Nat) (v : Value) : Option Style :=
  if v.storable levels then ofValue? Value.isVoid v else none

theorem Step.kept_eq {v v' : Value} (h : Step v v') {levels : Nat} (hl : 100 < levels) :
    kept levels v' = kept levels v := by
  rw [kept, kept, h.ofValue?_eq]
  cases h with
  | members h => rw [h.storable_eq hl]

theorem Faulty.kept_eq_none {v : Value} (h : Faulty v) (levels : Nat) : kept levels v = none := by
  rw [kept, h.ofValue?_eq_none, ite_self]

end Style

namespace Token

def knownKeys (ms : List Member) : List Text :=
  let kind := (Value.only kindKey ms).bind Value.text?
  kindKey :: if kind = some textKind then ["content".toList, styleKey]
    else if kind = some qrKind then ["size".toList, styleKey] else []

def kept (levels : Nat) (v : Value) : Option Token := if v.storable levels then ofValue? v else none

def styled? (kind body : Value) (s : Style) : Option Token :=
  kind.text?.bind fun kind =>
    if kind = textKind then body.text?.map (.text · s)
    else if kind = qrKind then (size? body).map (.qr · s) else none

theorem ofParts?_eq (kind body style : Value) :
    ofParts? kind body style = (Style.ofValue? Value.isVoid style).bind (styled? kind body) := by
  rw [ofParts?]
  cases Style.ofValue? Value.isVoid style with
  | none => exact Option.bind_fun_none _
  | some s =>
    cases hk : kind.text? with
    | none => rw [Option.bind_some, styled?, hk]; rfl
    | some k =>
      rw [Option.bind_some, styled?, hk]
      dsimp only [bind, Option.bind]
      split_ifs
      · cases body.text? <;> rfl
      · cases size? body <;> rfl
      · rfl

theorem styled?_eq_none {kind : Value} (ht : kind.text? ≠ some textKind) (hq : kind.text? ≠ some qrKind)
    (body : Value) (s : Style) : styled? kind body s = none := by
  rw [styled?]
  cases hk : kind.text? with
  | none => rfl
  | some k =>
    rw [hk] at ht hq
    rw [Option.bind_some, if_neg fun h => ht (congrArg some h), if_neg fun h => hq (congrArg some h)]

variable {ms ms' : List Member}

theorem ofValue?_object (ms : List Member) : ofValue? (.object ms) =
    (Value.only kindKey ms).bind fun kind => (Value.only (bodyKey kind) ms).bind fun body =>
      (Value.only styleKey ms).bind fun style => ofParts? kind body style := rfl

theorem knownKeys_cases {kind : Value} (hk : Value.only kindKey ms = some kind) :
    knownKeys ms = [kindKey, bodyKey kind, styleKey] ∨
      knownKeys ms = [kindKey] ∧ ∀ body style, ofParts? kind body style = none := by
  have hknown : knownKeys ms = kindKey :: if kind.text? = some textKind then ["content".toList, styleKey]
      else if kind.text? = some qrKind then ["size".toList, styleKey] else [] := by
    rw [knownKeys, hk]
    rfl
  by_cases ht : kind.text? = some textKind
  · have hb : bodyKey kind = "content".toList := if_neg (by rw [ht]; decide)
    rw [hknown, if_pos ht, hb]
    exact Or.inl rfl
  · by_cases hq : kind.text? = some qrKind
    · have hb : bodyKey kind = "size".toList := if_pos hq
      rw [hknown, if_neg ht, if_pos hq, hb]
      exact Or.inl rfl
    · refine Or.inr ⟨by rw [hknown, if_neg ht, if_neg hq], fun body style => ?_⟩
      rw [ofParts?_eq]
      exact (Option.bind_congr fun s _ => styled?_eq_none ht hq body s).trans (Option.bind_fun_none _)

theorem ofValue?_widened (h : Value.Widened (knownKeys ms) ms ms') :
    ofValue? (.object ms') = ofValue? (.object ms) := by
  rw [ofValue?_object, ofValue?_object, h.only_eq List.mem_cons_self]
  apply Option.bind_congr
  intro kind hk
  obtain hknown | ⟨-, hn⟩ := knownKeys_cases hk
  · rw [hknown] at h
    have hb : bodyKey kind ∈ [kindKey, bodyKey kind, styleKey] := by simp
    have hs : styleKey ∈ [kindKey, bodyKey kind, styleKey] := by simp
    rw [h.only_eq hb, h.only_eq hs]
  · simp only [hn, Option.bind_fun_none]

theorem ofValue?_eq_none {key : Text} (hkey : key ∈ knownKeys ms) (h : (Value.withKey key ms).length ≠ 1) :
    ofValue? (.object ms) = none := by
  rw [← Value.only_eq_none_iff] at h
  rw [ofValue?_object]
  cases hk : Value.only kindKey ms with
  | none => rfl
  | some kind =>
    rw [Option.bind_some]
    obtain hknown | ⟨-, hn⟩ := knownKeys_cases hk
    · rw [hknown] at hkey
      simp only [List.mem_cons, List.not_mem_nil, or_false] at hkey
      obtain rfl | rfl | rfl := hkey
      · exact absurd (hk.symm.trans h) nofun
      · rw [h, Option.bind_none]
      · simp only [h, Option.bind_none, Option.bind_fun_none]
    · simp only [hn, Option.bind_fun_none]

inductive StylePlace : (Value → Value) → Prop where
  | member (a b : List Member) : StylePlace fun v => .object (a ++ (some styleKey, v) :: b)
  | item (kind body : Value) : StylePlace fun v => .array [kind, body, v]

theorem bodyKey_ne (kind : Value) : styleKey ≠ bodyKey kind := by
  rw [bodyKey]
  split_ifs <;> decide

theorem storable_stylePlace {f : Value → Value} (hf : StylePlace f) (levels : Nat) :
    ∃ c : Bool, ∀ v, (f v).storable (levels + 1) = (c && v.storable levels) := by
  cases hf with
  | member a b => exact ⟨_, fun v => Value.storable_place levels⟩
  | item kind body =>
    refine ⟨kind.storable levels && body.storable levels, fun v => ?_⟩
    simp [Value.storable, Value.storableItems, Bool.and_assoc]

theorem ofValue?_stylePlace {f : Value → Value} (hf : StylePlace f) :
    ∃ g : Style → Option Token, ∀ v, ofValue? (f v) = (Style.ofValue? Value.isVoid v).bind g := by
  cases hf with
  | member a b =>
    by_cases hs : Value.withKey styleKey (a ++ b) = []
    · refine ⟨fun s => (Value.only kindKey (a ++ b)).bind fun kind =>
        (Value.only (bodyKey kind) (a ++ b)).bind fun body => styled? kind body s, fun v => ?_⟩
      simp only [ofValue?_object, Value.only_place hs, Value.only_place_of_ne (bodyKey_ne _), Option.bind_some,
        Value.only_place_of_ne (show styleKey ≠ kindKey by decide), ofParts?_eq]
      simp only [Option.bind_comm _ (Style.ofValue? Value.isVoid v)]
    · refine ⟨fun _ => none, fun v => ?_⟩
      simp only [ofValue?_object, Value.only_place_eq_none hs, Option.bind_none, Option.bind_fun_none]
  | item kind body => exact ⟨styled? kind body, fun v => ofParts?_eq kind body v⟩

theorem kept_stylePlace {f : Value → Value} (hf : StylePlace f) (levels : Nat) :
    ∃ g : Style → Option Token, ∀ v, kept (levels + 1) (f v) = (Style.kept levels v).bind g := by
  obtain ⟨c, hc⟩ := storable_stylePlace hf levels
  obtain ⟨g, hg⟩ := ofValue?_stylePlace hf
  refine ⟨fun s => if c then g s else none, fun v => ?_⟩
  rw [kept, Style.kept, hc, hg]
  cases c <;> cases v.storable levels <;> simp

inductive Step : Value → Value → Prop where
  | members {ms ms' : List Member} (h : Value.Widened (knownKeys ms) ms ms') : Step (.object ms) (.object ms')
  | style {f : Value → Value} (hf : StylePlace f) {v v' : Value} (h : Style.Step v v') : Step (f v) (f v')

theorem Step.kept_eq {v v' : Value} (h : Step v v') {levels : Nat} (hl : 100 < levels) :
    kept (levels + 1) v' = kept (levels + 1) v := by
  cases h with
  | members h => rw [kept, kept, h.storable_eq (Nat.lt_succ_of_lt hl), ofValue?_widened h]
  | style hf h =>
    obtain ⟨g, hg⟩ := kept_stylePlace hf levels
    rw [hg, hg, h.kept_eq hl]

/-- A key that counts is missing or repeated in a token, or its style is faulty. -/
inductive Faulty : Value → Prop where
  | key {ms : List Member} {key : Text} (hk : key ∈ knownKeys ms) (h : (Value.withKey key ms).length ≠ 1) :
    Faulty (.object ms)
  | style {f : Value → Value} (hf : StylePlace f) {v : Value} (h : Style.Faulty v) : Faulty (f v)

theorem Faulty.kept_eq_none {v : Value} (h : Faulty v) (levels : Nat) : kept (levels + 1) v = none := by
  cases h with
  | key hk h => rw [kept, ofValue?_eq_none hk h, ite_self]
  | style hf h =>
    obtain ⟨g, hg⟩ := kept_stylePlace hf levels
    rw [hg, h.kept_eq_none, Option.bind_none]

end Token

namespace Printout

inductive TokenPlace : (Value → Value) → Prop where
  | member (a b : List Member) (c d : List Value) :
    TokenPlace fun v => .object (a ++ (some tokensKey, .array (c ++ v :: d)) :: b)
  | item (c d : List Value) (log : Value) : TokenPlace fun v => .array [.array (c ++ v :: d), log]

theorem tokens?_place (c d : List Value) : ∃ g : Token → Option (List Token),
    ∀ v, tokens? (.array (c ++ v :: d)) = (Token.kept (depthLimit - 2) v).bind g := by
  refine ⟨fun t => (c.mapM (Token.kept (depthLimit - 2))).bind fun cs =>
    (d.mapM (Token.kept (depthLimit - 2))).bind fun ds => some (cs ++ t :: ds), fun v => ?_⟩
  have ht : tokens? (.array (c ++ v :: d)) = (c ++ v :: d).mapM (Token.kept (depthLimit - 2)) := rfl
  rw [ht, List.mapM_append, List.mapM_cons]
  cases c.mapM (Token.kept (depthLimit - 2)) <;> cases Token.kept (depthLimit - 2) v <;>
    cases d.mapM (Token.kept (depthLimit - 2)) <;> rfl

def logged? (log : Option Value) (tokens : List Token) : Option Printout :=
  (log.bind log?).bind fun notices => some ⟨tokens, notices⟩

theorem ofValue?_object (ms : List Member) : ofValue? (.object ms) =
    if Value.keyed ms then ((Value.only tokensKey ms).bind tokens?).bind (logged? (Value.only logKey ms))
    else none := by
  have hl : logged? (Value.only logKey ms) = fun tokens =>
      (Value.only logKey ms).bind fun log => (log? log).bind fun notices => some ⟨tokens, notices⟩ :=
    funext fun _ => Option.bind_assoc _ _ _
  rw [ofValue?, hl, Option.bind_assoc]
  cases Value.keyed ms <;> rfl

theorem ofValue?_array (tokens log : Value) :
    ofValue? (.array [tokens, log]) = (tokens? tokens).bind (logged? (some log)) := rfl

theorem ofValue?_tokenPlace {f : Value → Value} (hf : TokenPlace f) :
    ∃ g : Token → Option Printout, ∀ v, ofValue? (f v) = (Token.kept (depthLimit - 2) v).bind g := by
  cases hf with
  | member a b c d =>
    obtain ⟨g, hg⟩ := tokens?_place c d
    by_cases ht : Value.withKey tokensKey (a ++ b) = []
    · refine ⟨fun t => if Value.keyed (a ++ b) then (g t).bind (logged? (Value.only logKey (a ++ b))) else none,
        fun v => ?_⟩
      rw [ofValue?_object, Value.keyed_place, Value.only_place ht, Value.only_place_of_ne (by decide),
        Option.bind_some, hg, Option.bind_assoc]
      cases Value.keyed (a ++ b) with
      | true => rfl
      | false => exact (Option.bind_fun_none _).symm
    · refine ⟨fun _ => none, fun v => ?_⟩
      rw [ofValue?_object, Value.only_place_eq_none ht, Option.bind_none, Option.bind_none, ite_self,
        Option.bind_fun_none]
  | item c d log =>
    obtain ⟨g, hg⟩ := tokens?_place c d
    refine ⟨fun t => (g t).bind (logged? (some log)), fun v => ?_⟩
    rw [ofValue?_array, hg, Option.bind_assoc]

inductive Step : Value → Value → Prop where
  | token {f : Value → Value} (hf : TokenPlace f) {v v' : Value} (h : Token.Step v v') : Step (f v) (f v')

theorem Step.ofValue?_eq {v v' : Value} (h : Step v v') : ofValue? v' = ofValue? v := by
  cases h with
  | token hf h =>
    obtain ⟨g, hg⟩ := ofValue?_tokenPlace hf
    rw [hg, hg, depthLimit, h.kept_eq (show 100 < 124 by decide)]

inductive Faulty : Value → Prop where
  | token {f : Value → Value} (hf : TokenPlace f) {v : Value} (h : Token.Faulty v) : Faulty (f v)

theorem Faulty.ofValue?_eq_none {v : Value} (h : Faulty v) : ofValue? v = none := by
  cases h with
  | token hf h =>
    obtain ⟨g, hg⟩ := ofValue?_tokenPlace hf
    rw [hg, depthLimit, h.kept_eq_none 124, Option.bind_none]

end Printout

theorem eq_of_eqvGen {α : Type} {step : Value → Value → Prop} {read : Value → α}
    (h : ∀ v v', step v v' → read v' = read v) {v v' : Value} (hs : Relation.EqvGen step v v') :
    read v = read v' := by
  induction hs with
  | rel v v' hs => exact (h v v' hs).symm
  | refl v => rfl
  | symm v v' _ ih => exact ih.symm
  | trans u v w _ _ ihu ihv => exact ihu.trans ihv

/-- In the objects that styles and tokens are read from, alone or inside others, the order of the members does
not count, nor do members that have keys of their own. A key that counts stands once, wherever it stands, and
only the scale may be left out. -/
theorem read?_rearranged :
    (∀ (v : Value) (t : Text), v.IsText t → Value.whole? t = some v) ∧
    (∀ (t t' : Text) (v v' : Value), Value.whole? t = some v → Value.whole? t' = some v' →
      (Relation.EqvGen Style.Step v v' → Style.read? t = Style.read? t') ∧
      (Relation.EqvGen Token.Step v v' → Token.read? t = Token.read? t') ∧
      (Relation.EqvGen Printout.Step v v' → Printout.read? t = Printout.read? t')) ∧
    ∀ (t : Text) (v : Value), Value.whole? t = some v →
      (Style.Faulty v → Style.read? t = none) ∧ (Token.Faulty v → Token.read? t = none) ∧
      (Printout.Faulty v → Printout.read? t = none) := by
  have hstyle : ∀ {t : Text} {v : Value}, Value.whole? t = some v →
      Style.read? t = Style.ofValue? Value.isNull v := fun h => by rw [Style.read?, h, Option.bind_some]
  have htoken : ∀ {t : Text} {v : Value}, Value.whole? t = some v →
      Token.read? t = Token.kept Printout.depthLimit v := fun h => by
    rw [Token.read?, h]
    rfl
  have hprintout : ∀ {t : Text} {v : Value}, Value.whole? t = some v →
      Printout.read? t = Printout.ofValue? v := fun h => by rw [Printout.read?, h, Option.bind_some]
  refine ⟨fun v t h => h.whole?_eq, fun t t' v v' h h' => ?_, fun t v h => ?_⟩
  · rw [hstyle h, hstyle h', htoken h, htoken h', hprintout h, hprintout h']
    refine ⟨eq_of_eqvGen fun _ _ hs => hs.ofValue?_eq, eq_of_eqvGen fun _ _ hs => ?_,
      eq_of_eqvGen fun _ _ hs => hs.ofValue?_eq⟩
    exact hs.kept_eq (show 100 < 126 by decide)
  · rw [hstyle h, htoken h, hprintout h]
    exact ⟨fun hf => hf.ofValue?_eq_none, fun hf => hf.kept_eq_none 126, fun hf => hf.ofValue?_eq_none⟩

/-- A text in a printout, with the members of its style backwards and then its own, and two sizes in front, which
do not count for a text. With two styles it is no token. -/
theorem read?_rearranged_backwards :
    let style := Style.keys.zip [.bool true, .ofText "normal".toList, .ofText "normal".toList,
      .ofText "left".toList, .bool false, .bool false, .bool false, .bool false]
    let token (style : List (Text × Value)) := [("type".toList, Value.ofText "text".toList),
      ("content".toList, .ofText "a".toList), ("style".toList, .ofMembers style)]
    let others := [("size".toList, Value.array [.null]), ("size".toList, .ofNat 7)]
    let printout (ms : List (Text × Value)) :=
      Value.ofMembers [("tokens".toList, .array [.ofMembers ms]), ("log".toList, .array [])]
    Printout.read? (printout (token style)).compact =
        Printout.read? (printout (others ++ (token style.reverse).reverse)).compact ∧
      Printout.read? (printout (("style".toList, .null) :: token style)).compact = none := by
  intro style token others printout
  have hwritten : ∀ ms : List (Text × Value), (∀ m ∈ ms, m.2.IsWritten) → (printout ms).IsWritten := by
    intro ms h
    have ha : Value.IsWritten (.array [.ofMembers ms]) := .array (List.forall_mem_singleton.mpr (.object h))
    exact .object (List.forall_mem_cons.mpr ⟨ha, List.forall_mem_singleton.mpr (.array (List.forall_mem_nil _))⟩)
  have hstyle : ∀ m ∈ style, m.2.IsWritten := by
    simp only [style, Style.keys, List.zip_cons_cons, List.zip_nil_right, List.forall_mem_cons]
    exact ⟨.bool _, .text _, .text _, .text _, .bool _, .bool _, .bool _, .bool _, List.forall_mem_nil _⟩
  have htoken : ∀ {style}, (∀ m ∈ style, m.2.IsWritten) → ∀ m ∈ token style, m.2.IsWritten := fun h =>
    List.forall_mem_cons.mpr ⟨.text _, List.forall_mem_cons.mpr ⟨.text _, List.forall_mem_singleton.mpr (.object h)⟩⟩
  have hback : ∀ m ∈ others ++ (token style.reverse).reverse, m.2.IsWritten := by
    rw [List.forall_mem_append]
    refine ⟨?_, fun m hm => htoken (fun m hm => hstyle m (List.mem_reverse.mp hm)) m (List.mem_reverse.mp hm)⟩
    exact List.forall_mem_cons.mpr ⟨.array (List.forall_mem_singleton.mpr .null),
      List.forall_mem_singleton.mpr (.number Literal.isWritten_ofNat)⟩
  have hplace : Printout.TokenPlace fun v =>
      .object [(some "tokens".toList, .array [v]), (some "log".toList, .array [])] :=
    .member [] [(some "log".toList, .array [])] [] []
  have hstep : Token.Step (.ofMembers (token style)) (.ofMembers (token style.reverse)) := by
    apply Token.Step.style (.member [(some "type".toList, .ofText "text".toList),
      (some "content".toList, .ofText "a".toList)] [])
    exact .members ⟨[], by rw [List.append_nil]; exact (List.reverse_perm style).map _, List.forall_mem_nil _⟩
  have hothers : Token.Step (.ofMembers (token style.reverse))
      (.ofMembers (others ++ (token style.reverse).reverse)) := by
    refine .members ⟨others.map fun m => (some m.1, m.2), ?_, ?_⟩
    · rw [List.map_append]
      exact List.perm_append_comm.trans (((List.reverse_perm _).map _).append_right _)
    · have hsize : "size".toList ∉ Token.knownKeys ((token style.reverse).map fun m => (some m.1, m.2)) := by
        decide
      exact List.forall_mem_cons.mpr ⟨⟨⟨_, rfl, hsize⟩, rfl⟩,
        List.forall_mem_singleton.mpr ⟨⟨_, rfl, hsize⟩, rfl⟩⟩
  obtain ⟨hwhole, hread, hfaulty⟩ := read?_rearranged
  have hw := hwhole _ _ (hwritten _ (htoken hstyle)).isText_compact
  have hw' := hwhole _ _ (hwritten _ hback).isText_compact
  constructor
  · exact (hread _ _ _ _ hw hw').2.2 (.trans _ _ _ (.rel _ _ (.token hplace hstep)) (.rel _ _ (.token hplace hothers)))
  · have hw := hwhole _ _ (hwritten (("style".toList, .null) :: token style)
      (List.forall_mem_cons.mpr ⟨.null, htoken hstyle⟩)).isText_compact
    exact (hfaulty _ _ hw).2.2 (.token hplace (@Token.Faulty.key _ "style".toList (by decide) (by decide)))

end ReceiptPrinter
