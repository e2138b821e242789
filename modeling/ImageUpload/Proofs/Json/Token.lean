import Mathlib.Data.List.Forall2
import Mathlib.Data.List.TakeWhile
import ImageUpload.Json.Token
import ImageUpload.Json.Writer
import ImageUpload.Proofs.Json.Quoted

/-
What the scanner makes of a text.

`Spells` is the scanner on a whole text, and `Reads` is what a piece of text adds to the
tokens of whatever follows it.  A number or a word ends only where something follows that is
no part of it, which is `Delimited`.  The pieces are put together by `Reads.append`, and a list
of them with commas between by `reads_intercalate`.
-/

namespace ImageUpload
namespace Json

/-- The text scans to these tokens. -/
def Spells (text : List Char) (tokens : List Token) : Prop :=
  ∀ found, Token.scan found .between (text.map some) = some (found.reverse ++ tokens)

/-- A number or a word that stands before this text ends there. -/
def Delimited (text : List Char) : Prop :=
  ∀ c rest, text = c :: rest → Token.isNumeral c = false ∧ c.isLower = false

/-- The text comes to these tokens, and then come those of the text behind it. -/
def Reads (text : List Char) (tokens : List Token) : Prop :=
  ∀ after more, Delimited after → Spells after more → Spells (text ++ after) (tokens ++ more)

theorem spells_nil : Spells [] [] := by
  intro found
  show some (found.reverse ++ []) = _
  rfl

theorem delimited_nil : Delimited [] :=
  fun _ _ h => nomatch h

theorem delimited_cons {c : Char} (hnumeral : Token.isNumeral c = false) (hlower : c.isLower = false)
    (rest : List Char) : Delimited (c :: rest) := by
  intro c' rest' h
  obtain ⟨rfl, -⟩ := List.cons.inj h
  exact ⟨hnumeral, hlower⟩

theorem Delimited.append {text after : List Char} (h : Delimited text) (hafter : Delimited after) :
    Delimited (text ++ after) := by
  cases text with
  | nil => exact hafter
  | cons c rest => exact delimited_cons (h c rest rfl).1 (h c rest rfl).2 _

theorem Reads.spells {text : List Char} {tokens : List Token} (h : Reads text tokens) :
    Spells text tokens := by
  have hall := h [] [] delimited_nil spells_nil
  rwa [List.append_nil, List.append_nil] at hall

theorem reads_nil : Reads [] [] :=
  fun _ _ _ hspells => hspells

theorem Reads.append {text text' : List Char} {tokens tokens' : List Token} (h : Reads text tokens)
    (h' : Reads text' tokens') (hdelimited : Delimited text') :
    Reads (text ++ text') (tokens ++ tokens') := by
  intro after more hafter hspells
  rw [List.append_assoc, List.append_assoc]
  exact h _ _ (hdelimited.append hafter) (h' _ _ hafter hspells)

/-! ## Symbols between the values -/

theorem Spells.punctuation {c : Char} {t : Token} {text : List Char} {tokens : List Token}
    (h : Spells text tokens) (hstart : Token.start (some c) = some ([t], .between)) :
    Spells (c :: text) (t :: tokens) := by
  intro found
  have hrest := h (t :: found)
  show Token.scan found .between (some c :: text.map some) = _
  unfold Token.scan
  simp only [Token.step, hstart]
  show Token.scan (t :: found) .between _ = _
  rw [hrest, List.reverse_cons, List.append_assoc]
  rfl

theorem Spells.blank {c : Char} {text : List Char} {tokens : List Token} (h : Spells text tokens)
    (hblank : Token.isBlank c = true) : Spells (c :: text) tokens := by
  intro found
  have hstart : Token.start (some c) = some ([], .between) := if_pos hblank
  show Token.scan found .between (some c :: text.map some) = _
  unfold Token.scan
  simp only [Token.step, hstart]
  exact h found

theorem Reads.punctuation {c : Char} {t : Token} {text : List Char} {tokens : List Token}
    (h : Reads text tokens) (hstart : Token.start (some c) = some ([t], .between)) :
    Reads (c :: text) (t :: tokens) :=
  fun after more hafter hspells => (h after more hafter hspells).punctuation hstart

theorem Reads.blank {c : Char} {text : List Char} {tokens : List Token} (h : Reads text tokens)
    (hblank : Token.isBlank c = true) : Reads (c :: text) tokens :=
  fun after more hafter hspells => (h after more hafter hspells).blank hblank

theorem Reads.blanks {n : Nat} {text : List Char} {tokens : List Token} (h : Reads text tokens) :
    Reads (List.replicate n ' ' ++ text) tokens := by
  induction n with
  | zero => exact h
  | succ n ih => exact ih.blank rfl

/-- Texts with a comma between each two, behind which there may be blanks. -/
theorem reads_intercalate {texts : List (List Char)} {tokens : List (List Token)}
    (h : List.Forall₂ Reads texts tokens) (blanks : List Char)
    (hblanks : ∀ c ∈ blanks, Token.isBlank c = true) :
    Reads ((',' :: blanks).intercalate texts) ([.comma].intercalate tokens) := by
  have hspaced : ∀ {text : List Char} {ts : List Token}, Reads text ts → Reads (blanks ++ text) ts := by
    intro text ts hreads
    induction blanks with
    | nil => exact hreads
    | cons c blanks ih =>
      obtain ⟨hc, hblanks⟩ := List.forall_mem_cons.mp hblanks
      exact (ih hblanks).blank hc
  induction h with
  | nil => exact reads_nil
  | @cons text ts texts tokens hreads hrest ih =>
    cases hrest with
    | nil =>
      rw [List.intercalate_singleton, List.intercalate_singleton]
      exact hreads
    | cons hnext hmore =>
      rw [List.intercalate_cons_cons, List.intercalate_cons_cons, List.append_assoc,
        List.append_assoc]
      refine hreads.append ?_ (delimited_cons rfl rfl _)
      exact (hspaced ih).punctuation rfl

/-! ## Literals -/

/-- In a string literal the scanner gathers what was written between the quotes. -/
theorem scan_encode (s : List Char) (raw : List Symbol) (found : List Token) (rest : List Symbol) :
    Token.scan found (.inString raw) ((Quoted.encode s).map some ++ rest) =
      Token.scan found (.inString (((Quoted.encode s).map some).reverse ++ raw)) rest := by
  induction s generalizing raw with
  | nil => rfl
  | cons c s ih =>
    have hplain : ∀ {d : Char} (raw rest : List Symbol), d ≠ '"' → d ≠ '\\' →
        Token.scan found (.inString raw) (some d :: rest) =
          Token.scan found (.inString (some d :: raw)) rest := by
      intro d raw rest hquote hbackslash
      rw [Token.scan]
      simp only [Token.step, Option.some.injEq, hquote, hbackslash, if_false]
      rfl
    have hescape : ∀ {d : Char} (raw rest : List Symbol),
        Token.scan found (.inString raw) (some '\\' :: some d :: rest) =
          Token.scan found (.inString (some d :: some '\\' :: raw)) rest := fun _ _ => rfl
    have hsplit : (Quoted.encode (c :: s)).map some =
        (Quoted.encodeChar c).map some ++ (Quoted.encode s).map some := by
      show ((Quoted.encodeChar c) ++ Quoted.encode s).map some = _
      rw [List.map_append]
    rw [hsplit, List.append_assoc, List.reverse_append, List.append_assoc]
    obtain ⟨hc, hquote, hbackslash, -⟩ | ⟨e, hc, -, -⟩ | ⟨hlt, hc⟩ := Quoted.encodeChar_cases c
    · rw [hc]
      exact (hplain raw _ hquote hbackslash).trans (ih _)
    · rw [hc]
      exact (hescape raw _).trans (ih _)
    · have hhex : ∀ m < 32, Quoted.hexDigit m ≠ '"' ∧ Quoted.hexDigit m ≠ '\\' := by decide
      obtain ⟨hhigh, hhigh'⟩ := hhex (c.toNat / 16) (by omega)
      obtain ⟨hlow, hlow'⟩ := hhex (c.toNat % 16) (by omega)
      rw [hc]
      refine (hescape raw _).trans ?_
      refine (hplain _ _ (by decide) (by decide)).trans ?_
      refine (hplain _ _ (by decide) (by decide)).trans ?_
      refine (hplain _ _ hhigh hhigh').trans ?_
      exact (hplain _ _ hlow hlow').trans (ih _)

theorem reads_string (s : String) : Reads (quote s).toList [.scalar (.string (some s))] := by
  intro after more _ hspells found
  have htext : ((quote s).toList ++ after).map some =
      some '"' :: ((Quoted.encode s.toList).map some ++ some '"' :: after.map some) := by
    unfold quote
    rw [String.toList_ofList]
    simp only [List.cons_append, List.map_cons, List.map_append, List.append_assoc, List.nil_append]
  rw [htext]
  show Token.scan found (.inString []) _ = _
  rw [scan_encode, List.append_nil]
  have hclose : Token.step (.inString ((Quoted.encode s.toList).map some).reverse) (some '"') =
      some ([.scalar (.string (some s))], .between) := by
    show (if Quoted.wellFormed ((Quoted.encode s.toList).map some).reverse.reverse then _ else _) = _
    rw [List.reverse_reverse, Quoted.wellFormed_encode, Quoted.text?_encode]
    rfl
  rw [Token.scan, hclose]
  exact (hspells (.scalar (.string (some s)) :: found)).trans (by simp)

/-! ## Numbers and words -/

/-- The scanner takes the symbols of a number up to the first that is none of it. -/
theorem scan_number (digits run : List Char) (found : List Token) (rest : List Symbol)
    (hdigits : ∀ c ∈ digits, Token.isNumeral c = true) :
    Token.scan found (.inNumber run) (digits.map some ++ rest) =
      Token.scan found (.inNumber (digits.reverse ++ run)) rest := by
  induction digits generalizing run with
  | nil => rfl
  | cons c digits ih =>
    obtain ⟨hc, hdigits⟩ := List.forall_mem_cons.mp hdigits
    rw [List.reverse_cons, List.append_assoc]
    refine Eq.trans ?_ (ih (c :: run) hdigits)
    show Token.scan found (.inNumber run) (some c :: (digits.map some ++ rest)) = _
    rw [Token.scan]
    simp only [Token.step, hc, if_true]
    rfl

/-- A run ends where the text behind it is read on its own. -/
theorem scan_closeRun {v : Value} {c : Char} {found tokens : List Token} {rest : List Symbol}
    (h : Token.scan (.scalar v :: found) .between (some c :: rest) = some tokens)
    {mode : Token.Mode} (hstep : Token.step mode (some c) = Token.closeRun (some v) (some c)) :
    Token.scan found mode (some c :: rest) = some tokens := by
  rw [Token.scan] at h ⊢
  rw [hstep]
  simp only [Token.step, Token.closeRun] at h ⊢
  cases hstart : Token.start (some c) with
  | none =>
    rw [hstart] at h
    exact nomatch h
  | some p =>
    obtain ⟨new, mode'⟩ := p
    rw [hstart] at h
    simp only [List.reverse_cons, List.append_assoc, List.singleton_append] at h ⊢
    exact h

/-- A run of symbols that ends in a value, behind which something else follows. -/
theorem reads_run {text : List Char} {v : Value} (mode : Token.Mode)
    (hscan : ∀ found rest, Token.scan found .between (text.map some ++ rest) =
      Token.scan found mode rest)
    (hfinish : Token.finish mode = some [.scalar v])
    (hclose : ∀ c, Token.isNumeral c = false → c.isLower = false →
      Token.step mode (some c) = Token.closeRun (some v) (some c)) : Reads text [.scalar v] := by
  intro after more hafter hspells found
  have hrest := hspells (.scalar v :: found)
  rw [List.map_append, hscan]
  rw [List.reverse_cons, List.append_assoc] at hrest
  cases after with
  | nil =>
    have hmore : more = [] := (List.nil_append _).symm.trans (Option.some.inj (hspells [])).symm
    rw [hmore]
    show (Token.finish mode).map _ = _
    rw [hfinish]
    rfl
  | cons c rest =>
    obtain ⟨hnumeral, hlower⟩ := hafter c rest rfl
    exact scan_closeRun hrest (hclose c hnumeral hlower)

theorem head?_toDigits {n : Nat} (hpos : 0 < n) : (Nat.toDigits 10 n).head? ≠ some '0' := by
  induction n using Nat.strongRecOn with
  | ind n ih =>
    by_cases hlt : n < 10
    · have hdigit : ∀ m < 10, 0 < m → m.digitChar ≠ '0' := by decide
      rw [Nat.toDigits_of_lt_base hlt]
      exact fun heq => hdigit n hlt hpos (Option.some.inj heq)
    · rw [Nat.toDigits_of_base_le (by decide) (Nat.le_of_not_lt hlt),
        List.head?_append_of_ne_nil _ Nat.toDigits_ne_nil]
      exact ih (n / 10) (by omega) (by omega)

/-- Digits without a leading zero make a natural number. -/
theorem number?_toDigits (n : Nat) :
    Token.number? (Nat.toDigits 10 n) = some (.natural n) := by
  have hdigits : ∀ c ∈ Nat.toDigits 10 n, c.isDigit = true := fun c hc =>
    Nat.isDigit_of_mem_toDigits (by decide) (by decide) hc
  have hinteger : Token.afterInteger? (Nat.toDigits 10 n) = some [] := by
    rcases Nat.eq_zero_or_pos n with rfl | hpos
    · rfl
    · unfold Token.afterInteger?
      split
      next rest heq => exact absurd (by rw [heq]; rfl) (head?_toDigits hpos)
      next _ =>
        unfold Token.afterDigits?
        obtain ⟨c, cs, hcs⟩ := List.exists_cons_of_ne_nil (Nat.toDigits_ne_nil (n := n) (b := 10))
        rw [if_pos]
        · rw [List.dropWhile_eq_nil_iff.mpr hdigits]
        · rw [hcs]
          exact hdigits c (hcs ▸ List.mem_cons_self)
  unfold Token.number?
  rw [if_pos hinteger, Nat.ofDigitChars_ten_toDigits]

theorem isNumeral_of_isDigit {c : Char} (h : c.isDigit = true) : Token.isNumeral c = true := by
  unfold Token.isNumeral
  simp only [h, Bool.true_or]

theorem start_of_isDigit {c : Char} (h : c.isDigit = true) :
    Token.start (some c) = some ([], .inNumber [c]) := by
  have hblank : Token.isBlank c = false := by
    refine Bool.eq_false_iff.mpr fun hblank => ?_
    simp only [Token.isBlank, Bool.or_eq_true, beq_iff_eq] at hblank
    obtain ((rfl | rfl) | rfl) | rfl := hblank <;> exact absurd h (by decide)
  have hquote : c ≠ '"' := by
    rintro rfl
    exact absurd h (by decide)
  simp only [Token.start, hblank, hquote, h, Bool.true_or, if_true, if_false, Bool.false_eq_true]

theorem reads_natural (n : Nat) : Reads (toString n).toList [.scalar (.natural n)] := by
  have htext : (toString n).toList = Nat.toDigits 10 n := by
    rw [Nat.toString_eq_repr, Nat.toList_repr]
  have hdigits : ∀ c ∈ Nat.toDigits 10 n, c.isDigit = true := fun c hc =>
    Nat.isDigit_of_mem_toDigits (by decide) (by decide) hc
  obtain ⟨c, cs, hcs⟩ := List.exists_cons_of_ne_nil (Nat.toDigits_ne_nil (n := n) (b := 10))
  have hnumber := number?_toDigits n
  rw [htext]
  rw [hcs] at hdigits hnumber ⊢
  obtain ⟨hc, hrest⟩ := List.forall_mem_cons.mp hdigits
  have hreverse : (cs.reverse ++ [c]).reverse = c :: cs := by
    rw [List.reverse_append, List.reverse_reverse]
    rfl
  refine reads_run (.inNumber (cs.reverse ++ [c])) (fun found rest => ?_) ?_ fun c' hnumeral _ => ?_
  · have hstart := start_of_isDigit hc
    rw [← scan_number cs [c] found rest fun d hd => isNumeral_of_isDigit (hrest d hd)]
    show Token.scan found .between (some c :: (cs.map some ++ rest)) = _
    rw [Token.scan]
    simp only [Token.step, hstart]
    rfl
  · show (Token.number? _).map _ = _
    rw [hreverse, hnumber]
    rfl
  · show (if Token.isNumeral c' then _ else Token.closeRun (Token.number? _) (some c')) = _
    rw [hnumeral, hreverse, hnumber]
    rfl

theorem reads_null : Reads "null".toList [.scalar .null] :=
  reads_run (.inWord "null".toList.reverse) (fun _ _ => rfl) rfl fun _ _ hlower => by
    simp only [Token.step, hlower, Bool.false_eq_true, if_false]
    rfl

theorem reads_bool (b : Bool) : Reads (Value.bool b).scalarText.toList [.scalar (.bool b)] := by
  cases b with
  | true =>
    exact reads_run (.inWord "true".toList.reverse) (fun _ _ => rfl) rfl fun _ _ hlower => by
      simp only [Token.step, hlower, Bool.false_eq_true, if_false]
      rfl
  | false =>
    exact reads_run (.inWord "false".toList.reverse) (fun _ _ => rfl) rfl fun _ _ hlower => by
      simp only [Token.step, hlower, Bool.false_eq_true, if_false]
      rfl

end Json
end ImageUpload
