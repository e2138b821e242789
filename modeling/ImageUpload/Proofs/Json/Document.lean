import ImageUpload.Json.Reader
import ImageUpload.Json.Record
import ImageUpload.Proofs.Json.Token

/-
Documents are read as they were written.

A value has its tokens, `Value.tokens`, whatever the layout.  The grammar makes the value of
them again, `run_tokens`, and both layouts scan to them, `reads_compact` and `reads_laidOut`.  So a
document without numbers other than natural ones is read back: `ofString?_compact` and
`ofString?_pretty`.
-/

namespace ImageUpload
namespace Json
namespace Value

/-! ## Tokens -/

mutual

def tokens : Value → List Token
  | array items => .openArray :: [.comma].intercalate (itemTokens items) ++ [.closeArray]
  | object members => .openObject :: [.comma].intercalate (memberTokens members) ++ [.closeObject]
  | v => [.scalar v]

def itemTokens : List Value → List (List Token)
  | [] => []
  | v :: rest => v.tokens :: itemTokens rest

def memberTokens : List (Option String × Value) → List (List Token)
  | [] => []
  | (name, v) :: rest => (.scalar (.string name) :: .colon :: v.tokens) :: memberTokens rest

end

/-! ## The grammar -/

/-- A value begins with a token that does not close an array. -/
theorem run_valueOrClose (v : Value) (frames : List Frame) (rest : List Token) :
    (Stage.valueOrClose frames).run (v.tokens ++ rest) =
      (Stage.value (.array [] :: frames)).run (v.tokens ++ rest) := by
  cases v <;> rfl

theorem intercalate_cons (t : List Token) (rest : List (List Token)) :
    [.comma].intercalate (t :: rest) = t ++ rest.flatMap (.comma :: ·) := by
  induction rest generalizing t with
  | nil => exact List.intercalate_singleton.trans (List.append_nil t).symm
  | cons u rest ih =>
    rw [List.intercalate_cons_cons, ih, List.append_assoc]
    rfl

mutual

/-- The grammar makes a value of its tokens. -/
theorem run_tokens : (v : Value) → (frames : List Frame) → (rest : List Token) →
    (Stage.value frames).run (v.tokens ++ rest) = (Stage.deliver v frames).run rest
  | .null, _, _ => rfl
  | .bool _, _, _ => rfl
  | .natural _, _, _ => rfl
  | .number _, _, _ => rfl
  | .string _, _, _ => rfl
  | .array [], _, _ => rfl
  | .object [], _, _ => rfl
  | .array (v :: items), frames, rest => by
    have hitems := run_itemTokens items [v] frames rest
    rw [tokens, itemTokens, intercalate_cons]
    simp only [List.cons_append, List.append_assoc, List.nil_append]
    refine (run_valueOrClose v frames _).trans ?_
    exact (run_tokens v (.array [] :: frames) _).trans hitems
  | .object ((name, v) :: members), frames, rest => by
    have hmembers := run_memberTokens members [(name, v)] name frames rest
    rw [tokens, memberTokens, intercalate_cons]
    simp only [List.cons_append, List.append_assoc, List.nil_append]
    exact (run_tokens v (.object [] name :: frames) _).trans hmembers

/-- The items behind the first. -/
theorem run_itemTokens : (items acc : List Value) → (frames : List Frame) → (rest : List Token) →
    (Stage.separator (.array acc) frames).run
        ((itemTokens items).flatMap (.comma :: ·) ++ .closeArray :: rest) =
      (Stage.deliver (.array (acc.reverse ++ items)) frames).run rest
  | [], acc, frames, rest => by
    rw [List.append_nil]
    rfl
  | v :: items, acc, frames, rest => by
    have hitems := run_itemTokens items (v :: acc) frames rest
    rw [List.reverse_cons, List.append_assoc] at hitems
    rw [itemTokens, List.flatMap_cons, List.append_assoc]
    exact (run_tokens v (.array acc :: frames) _).trans hitems

theorem run_memberTokens : (members acc : List (Option String × Value)) → (name : Option String) →
    (frames : List Frame) → (rest : List Token) →
    (Stage.separator (.object acc name) frames).run
        ((memberTokens members).flatMap (.comma :: ·) ++ .closeObject :: rest) =
      (Stage.deliver (.object (acc.reverse ++ members)) frames).run rest
  | [], acc, _, frames, rest => by
    rw [List.append_nil]
    rfl
  | (next, v) :: members, acc, _, frames, rest => by
    have hmembers := run_memberTokens members ((next, v) :: acc) next frames rest
    rw [List.reverse_cons, List.append_assoc] at hmembers
    rw [memberTokens, List.flatMap_cons, List.append_assoc]
    exact (run_tokens v (.object acc next :: frames) _).trans hmembers

end

/-- The tokens of a value are those of no other. -/
theorem ofTokens?_tokens (v : Value) : ofTokens? v.tokens = some v := by
  have hrun := run_tokens v [] []
  rw [List.append_nil] at hrun
  unfold ofTokens?
  rw [hrun]
  rfl

/-! ## The layouts -/

mutual

/-- No number occurs but natural ones. -/
def Whole : Value → Prop
  | number _ => False
  | array items => WholeItems items
  | object members => WholeMembers members
  | _ => True

def WholeItems : List Value → Prop
  | [] => True
  | v :: rest => v.Whole ∧ WholeItems rest

def WholeMembers : List (Option String × Value) → Prop
  | [] => True
  | (_, v) :: rest => v.Whole ∧ WholeMembers rest

end

theorem wholeItems_iff {items : List Value} : WholeItems items ↔ ∀ v ∈ items, v.Whole := by
  induction items with
  | nil => exact ⟨fun _ => nofun, fun _ => trivial⟩
  | cons v rest ih =>
    rw [List.forall_mem_cons, ← ih]
    exact Iff.rfl

theorem wholeMembers_iff {members : List (Option String × Value)} :
    WholeMembers members ↔ ∀ m ∈ members, m.2.Whole := by
  induction members with
  | nil => exact ⟨fun _ => nofun, fun _ => trivial⟩
  | cons m rest ih =>
    rw [List.forall_mem_cons, ← ih]
    exact Iff.rfl

theorem reads_stringText (s : Option String) :
    Reads (stringText s).toList [.scalar (.string s)] := by
  cases s with
  | some s => exact reads_string s
  | none =>
    intro after more _ hspells found
    exact (hspells (.scalar (.string none) :: found)).trans (by simp)

theorem reads_scalarText {v : Value} (h : v.Whole) (htokens : v.tokens = [.scalar v]) :
    Reads v.scalarText.toList [.scalar v] := by
  cases v with
  | null => exact reads_null
  | bool b => exact reads_bool b
  | natural n => exact reads_natural n
  | number written => exact absurd h id
  | string s => exact reads_stringText s
  | array items => exact nomatch htokens
  | object members => exact nomatch htokens

theorem reads_bracketed {c c' : Char} {t t' : Token} {text : List Char} {ts : List Token}
    (hopen : Token.start (some c) = some ([t], .between))
    (hclose : Token.start (some c') = some ([t'], .between)) (hdelimited : Delimited [c'])
    (h : Reads text ts) : Reads (c :: text ++ [c']) (t :: ts ++ [t']) :=
  (h.append (reads_nil.punctuation hclose) hdelimited).punctuation hopen

/-- A name before its value. -/
theorem reads_named {name : Option String} {text : List Char} {ts : List Token}
    (h : Reads text ts) :
    Reads ((stringText name).toList ++ ':' :: text) (.scalar (.string name) :: .colon :: ts) :=
  (reads_stringText name).append (h.punctuation rfl) (delimited_cons rfl rfl _)

mutual

theorem reads_compact : (v : Value) → v.Whole → Reads v.compact.toList v.tokens
  | .null, h => reads_scalarText h rfl
  | .bool _, h => reads_scalarText h rfl
  | .natural _, h => reads_scalarText h rfl
  | .number _, h => absurd h id
  | .string _, h => reads_scalarText h rfl
  | .array items, h => by
    rw [compact, String.toList_append, String.toList_append, String.toList_intercalate]
    exact reads_bracketed rfl rfl (delimited_cons rfl rfl [])
      (reads_intercalate (reads_compactItems items h) [] nofun)
  | .object members, h => by
    rw [compact, String.toList_append, String.toList_append, String.toList_intercalate]
    exact reads_bracketed rfl rfl (delimited_cons rfl rfl [])
      (reads_intercalate (reads_compactMembers members h) [] nofun)

theorem reads_compactItems : (items : List Value) → WholeItems items →
    List.Forall₂ Reads ((compactItems items).map String.toList) (itemTokens items)
  | [], _ => .nil
  | v :: rest, ⟨hv, hrest⟩ => .cons (reads_compact v hv) (reads_compactItems rest hrest)

theorem reads_compactMembers : (members : List (Option String × Value)) → WholeMembers members →
    List.Forall₂ Reads ((compactMembers members).map String.toList) (memberTokens members)
  | [], _ => .nil
  | (name, v) :: rest, ⟨hv, hrest⟩ => by
    refine .cons ?_ (reads_compactMembers rest hrest)
    rw [String.toList_append, String.toList_append, List.append_assoc]
    exact reads_named (reads_compact v hv)

end

/-- Lines between brackets come to what is written on them. -/
theorem reads_block {opening closing : String} {c c' : Char} {t t' : Token} {lines : List String}
    {tokens : List (List Token)} (level : Nat) (hopening : opening.toList = [c])
    (hclosing : closing.toList = [c']) (hopen : Token.start (some c) = some ([t], .between))
    (hclose : Token.start (some c') = some ([t'], .between)) (hdelimited : Delimited [c'])
    (h : List.Forall₂ Reads (lines.map String.toList) tokens) :
    Reads (block opening closing level lines).toList
      (t :: [.comma].intercalate tokens ++ [t']) := by
  unfold block
  split
  next hempty =>
    rw [List.isEmpty_iff.mp hempty] at h
    cases h
    rw [String.toList_append, hopening, hclosing]
    exact reads_bracketed hopen hclose hdelimited reads_nil
  next _ =>
    have hlines : List.Forall₂ Reads ((lines.map (indent (level + 1) ++ ·)).map String.toList)
        tokens := by
      rw [List.map_map]
      rw [List.forall₂_map_left_iff] at h ⊢
      refine h.imp fun line ts hline => ?_
      show Reads (indent (level + 1) ++ line).toList ts
      rw [String.toList_append, indent, String.toList_ofList]
      exact hline.blanks
    simp only [String.toList_append, String.toList_intercalate, hopening, hclosing, indent,
      String.toList_ofList, List.append_assoc]
    refine Reads.punctuation ?_ hopen
    refine Reads.blank ?_ rfl
    have hblanks : ∀ c ∈ ['\n'], Token.isBlank c = true := List.forall_mem_singleton.mpr rfl
    refine (reads_intercalate hlines ['\n'] hblanks).append ?_ (delimited_cons rfl rfl _)
    exact ((reads_nil.punctuation hclose).blanks).blank rfl

mutual

theorem reads_laidOut : (v : Value) → (level : Nat) → v.Whole → Reads (v.laidOut level).toList v.tokens
  | .null, _, h => reads_scalarText h rfl
  | .bool _, _, h => reads_scalarText h rfl
  | .natural _, _, h => reads_scalarText h rfl
  | .number _, _, h => absurd h id
  | .string _, _, h => reads_scalarText h rfl
  | .array items, level, h => by
    rw [laidOut]
    exact reads_block level rfl rfl rfl rfl (delimited_cons rfl rfl [])
      (reads_laidOutItems items (level + 1) h)
  | .object members, level, h => by
    rw [laidOut]
    exact reads_block level rfl rfl rfl rfl (delimited_cons rfl rfl [])
      (reads_laidOutMembers members (level + 1) h)

theorem reads_laidOutItems : (items : List Value) → (level : Nat) → WholeItems items →
    List.Forall₂ Reads ((laidOutItems level items).map String.toList) (itemTokens items)
  | [], _, _ => .nil
  | v :: rest, level, ⟨hv, hrest⟩ =>
    .cons (reads_laidOut v level hv) (reads_laidOutItems rest level hrest)

theorem reads_laidOutMembers : (members : List (Option String × Value)) → (level : Nat) →
    WholeMembers members →
    List.Forall₂ Reads ((laidOutMembers level members).map String.toList) (memberTokens members)
  | [], _, _ => .nil
  | (name, v) :: rest, level, ⟨hv, hrest⟩ => by
    refine .cons ?_ (reads_laidOutMembers rest level hrest)
    rw [String.toList_append, String.toList_append, List.append_assoc]
    exact reads_named ((reads_laidOut v level hv).blank rfl)

end

theorem compactItems_eq_map (items : List Value) : compactItems items = items.map compact := by
  induction items with
  | nil => rfl
  | cons v rest ih => rw [compactItems, ih, List.map_cons]

/-! ## Documents -/

theorem ofSymbols?_of_reads {v : Value} {text : List Char} (h : Reads text v.tokens) :
    ofSymbols? (text.map some) = some v := by
  have hscan : Token.ofSymbols? (text.map some) = some v.tokens := h.spells []
  unfold ofSymbols?
  rw [hscan]
  exact ofTokens?_tokens v

/-- The tokens in this order, each as it is written, with any blanks before and behind it. -/
inductive Laid : List Char → List Token → Prop where
  | nil : Laid [] []
  | blank {c : Char} {text : List Char} {ts : List Token} (hc : Token.isBlank c = true)
    (h : Laid text ts) : Laid (c :: text) ts
  | mark {c : Char} {t : Token} {text : List Char} {ts : List Token}
    (hc : Token.punctuation? c = some t) (h : Laid text ts) : Laid (c :: text) (t :: ts)
  | scalar {v : Value} {text : List Char} {ts : List Token} (hv : v.tokens = [.scalar v])
    (hwhole : v.Whole) (hends : Delimited text) (h : Laid text ts) :
    Laid (v.scalarText.toList ++ text) (.scalar v :: ts)

theorem start_of_punctuation? {c : Char} {t : Token} (h : Token.punctuation? c = some t) :
    Token.start (some c) = some ([t], .between) := by
  unfold Token.punctuation? at h
  split at h <;> cases h <;> rfl

theorem Laid.spells {text : List Char} {ts : List Token} (h : Laid text ts) : Spells text ts := by
  induction h with
  | nil => exact spells_nil
  | blank hc h ih => exact ih.blank hc
  | mark hc h ih => exact ih.punctuation (start_of_punctuation? hc)
  | scalar hv hwhole hends h ih => exact reads_scalarText hwhole hv _ _ hends ih

/-- However the tokens of a document are laid out, it is read. -/
theorem ofString?_of_laid {text : String} {v : Value} (h : Laid text.toList v.tokens) :
    ofString? text = some v := by
  have hscan : Token.ofSymbols? (text.toList.map some) = some v.tokens := h.spells []
  unfold ofString? ofSymbols? Symbol.ofString
  rw [hscan]
  exact ofTokens?_tokens v

theorem ofString?_compact {v : Value} (h : v.Whole) : ofString? v.compact = some v :=
  ofSymbols?_of_reads (reads_compact v h)

theorem ofString?_pretty {v : Value} (h : v.Whole) : ofString? v.pretty = some v :=
  ofSymbols?_of_reads (reads_laidOut v 0 h)

/-- The bytes of a text are read as the text. -/
theorem ofBytes?_toUTF8 (text : String) : ofBytes? text.toUTF8 = ofString? text := by
  have hutf8 : String.fromUTF8? text.toUTF8 = some text := dif_pos text.isValidUTF8
  unfold ofBytes? Symbol.ofBytes
  rw [hutf8]
  rfl

/-! ## Parts -/

theorem asWord?_natural {n : Nat} (h : n < 2 ^ 64) : (natural n).asWord? = some n :=
  if_pos h

theorem asWord?_eq_some_iff {v : Value} {n : Nat} :
    v.asWord? = some n ↔ v = .natural n ∧ n < 2 ^ 64 := by
  constructor
  · intro h
    cases v with
    | natural m =>
      obtain ⟨hm, hmn⟩ := Option.ite_none_right_eq_some.mp h
      injection hmn with hmn
      subst hmn
      exact ⟨rfl, hm⟩
    | null | bool | number | string | array | object => exact nomatch h
  · rintro ⟨rfl, hn⟩
    exact asWord?_natural hn

end Value

/-- A member is found if it is the only one of its name. -/
theorem member?_eq_some_iff {members : List (Option String × Value)} {name : String} {v : Value} :
    member? members name = some (some v) ↔
      members.filter (fun m => m.1 == some name) = [(some name, v)] := by
  have hnamed : ∀ m ∈ members.filter (fun m => m.1 == some name), m.1 = some name :=
    fun m hm => by simpa using (List.mem_filter.mp hm).2
  unfold member?
  generalize members.filter (fun m => m.1 == some name) = named at hnamed ⊢
  match named with
  | [] => simp
  | [m] =>
    have hm : m.1 = some name := hnamed m List.mem_cons_self
    simp [Prod.ext_iff, hm]
  | m :: m' :: rest => simp

/-- Items are read together if they are read one by one. -/
theorem mapM_eq_some_iff {α β : Type} {f : α → Option β} {items : List α} {l : List β} :
    items.mapM f = some l ↔ List.Forall₂ (fun b a => f a = some b) l items := by
  induction items generalizing l with
  | nil => simp [eq_comm]
  | cons a rest ih =>
    simp only [List.mapM_cons, Option.bind_eq_bind, Option.bind_eq_some_iff, Option.pure_def,
      Option.some.injEq, List.forall₂_cons_right_iff, ih]
    constructor
    · rintro ⟨b, hb, l', hl', rfl⟩
      exact ⟨b, l', hb, hl', rfl⟩
    · rintro ⟨b, l', hb, hl', rfl⟩
      exact ⟨b, hb, l', hl', rfl⟩

theorem mapM_map_of_eq {α β : Type} {f : α → β} {g : β → Option α} {l : List α}
    (h : ∀ a ∈ l, g (f a) = some a) : (l.map f).mapM g = some l :=
  mapM_eq_some_iff.mpr (List.forall₂_map_right_iff.mpr (List.forall₂_same.mpr h))

end Json
end ImageUpload
