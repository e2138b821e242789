import ImageUpload.RangeSet.Text
import ImageUpload.Proofs.Json.Document
import ImageUpload.Proofs.RangeSet.Canonical

/-
Ranges and sets of ranges as documents.

A range is read exactly from its records, `IsRecord`, and a set from the arrays of such records,
`IsListing`, whatever ranges they list and in whatever order.  A record whose ends are the wrong way
round spoils the array that it stands in.  What is written is a record or an array of records, so it
is read back, `json_round_trip`.
-/

namespace ImageUpload

open Json (Value)

namespace ByteRange

/-- The records of two ends: an object with both, in any order and among any other members, and
the array of the two. -/
inductive IsRecord (first last : Nat) : Value → Prop where
  | object {members : List (Option String × Value)} (hnames : ∀ m ∈ members, m.1.isSome = true)
    (hfirst : members.filter (fun m => m.1 == some "start") = [(some "start", .natural first)])
    (hlast : members.filter (fun m => m.1 == some "end") = [(some "end", .natural last)]) :
    IsRecord first last (.object members)
  | array : IsRecord first last (.array [.natural first, .natural last])

variable {v : Value} {first last : Nat} {r : ByteRange}

theorem fields?_eq_some_iff : v.fields? ["start", "end"] =
    some [some (.natural first), some (.natural last)] ↔ IsRecord first last v := by
  constructor
  · intro h
    cases v with
    | object members =>
      obtain ⟨hnames, hfields⟩ := Option.ite_none_right_eq_some.mp h
      have hboth := Json.mapM_eq_some_iff.mp hfields
      simp only [List.forall₂_cons, List.Forall₂.nil, and_true] at hboth
      exact .object (List.all_eq_true.mp hnames) (Json.member?_eq_some_iff.mp hboth.1)
        (Json.member?_eq_some_iff.mp hboth.2)
    | array items =>
      obtain ⟨hlength, hitems⟩ := Option.ite_none_right_eq_some.mp h
      match items with
      | [] => simp at hitems
      | [_] => simp at hitems
      | [a, b] =>
        simp at hitems
        obtain ⟨rfl, rfl⟩ := hitems
        exact .array
      | _ :: _ :: _ :: _ => simp at hlength
    | null | bool | natural | number | string => exact nomatch h
  · intro h
    cases h with
    | object hnames hfirst hlast =>
      refine (if_pos (List.all_eq_true.mpr hnames)).trans (Json.mapM_eq_some_iff.mpr ?_)
      exact .cons (Json.member?_eq_some_iff.mpr hfirst)
        (.cons (Json.member?_eq_some_iff.mpr hlast) .nil)
    | array => rfl

theorem IsRecord.unique {first' last' : Nat} (h : IsRecord first last v)
    (h' : IsRecord first' last' v) : first = first' ∧ last = last' := by
  have heq := (fields?_eq_some_iff.mpr h).symm.trans (fields?_eq_some_iff.mpr h')
  simpa using heq

/-- A value is read as a range exactly if it is a record of its ends. -/
theorem ofValue?_eq_some_iff : ofValue? v = some r ↔ IsRecord r.first r.last v := by
  constructor
  · intro h
    unfold ofValue? at h
    split at h
    next first last hfields =>
      split at h
      next first' last' hfirst hlast =>
        obtain ⟨rfl, -⟩ := Value.asWord?_eq_some_iff.mp hfirst
        obtain ⟨rfl, -⟩ := Value.asWord?_eq_some_iff.mp hlast
        unfold between at h
        split at h
        next hends =>
          injection h with h
          subst h
          exact fields?_eq_some_iff.mp hfields
        next _ => exact nomatch h
      next _ => exact nomatch h
    next _ => exact nomatch h
  · intro h
    have hfirst : r.first < 2 ^ 64 := Nat.lt_of_le_of_lt r.first_le_last r.last_lt
    unfold ofValue?
    simp only [fields?_eq_some_iff.mpr h, Value.asWord?_natural hfirst,
      Value.asWord?_natural r.last_lt]
    unfold between
    rw [dif_pos ⟨r.first_le_last, r.last_lt⟩]
    rfl

/-- A record whose ends are the wrong way round is none of any range. -/
theorem ofValue?_of_inverted (h : IsRecord first last v) (hlt : last < first) :
    ofValue? v = none := by
  refine Option.eq_none_iff_forall_ne_some.mpr fun r hr => ?_
  obtain ⟨rfl, rfl⟩ := h.unique (ofValue?_eq_some_iff.mp hr)
  have := r.first_le_last
  omega

theorem isRecord_toValue (r : ByteRange) : IsRecord r.first r.last r.toValue :=
  fields?_eq_some_iff.mp rfl

theorem whole_toValue (r : ByteRange) : r.toValue.Whole :=
  ⟨trivial, trivial, trivial⟩

theorem ofValue?_toValue (r : ByteRange) : ofValue? r.toValue = some r :=
  ofValue?_eq_some_iff.mpr r.isRecord_toValue

/-- Reading a text is reading the document in it. -/
theorem ofJson?_eq_some_iff {text : String} :
    ofJson? text = some r ↔ ∃ v, Value.ofString? text = some v ∧ IsRecord r.first r.last v := by
  unfold ofJson?
  simp only [Option.bind_eq_some_iff, ofValue?_eq_some_iff]

theorem ofJson?_json (r : ByteRange) : ofJson? r.json = some r :=
  ofJson?_eq_some_iff.mpr ⟨_, Value.ofString?_compact r.whole_toValue, r.isRecord_toValue⟩

theorem json_eq (r : ByteRange) :
    r.json = "\x7b\"start\":" ++ toString r.first ++ ",\"end\":" ++ toString r.last ++ "\x7d" := by
  have hstart : Value.stringText (some "start") = "\"start\"" := by decide +kernel
  have hend : Value.stringText (some "end") = "\"end\"" := by decide +kernel
  have hnumber (n : Nat) : (Value.natural n).compact = toString n := rfl
  unfold json toValue
  rw [Value.compact]
  simp only [Value.compactMembers, hstart, hend, hnumber]
  refine String.toList_injective ?_
  simp

end ByteRange

namespace RangeSet

/-- The arrays of the records of some ranges. -/
def IsListing (l : List ByteRange) (v : Value) : Prop :=
  ∃ items, v = .array items ∧
    List.Forall₂ (fun r item => ByteRange.IsRecord r.first r.last item) l items

variable {v : Value} {s : RangeSet}

/-- A value is read as a set exactly if it lists ranges that make up the set. -/
theorem ofValue?_eq_some_iff : ofValue? v = some s ↔ ∃ l, IsListing l v ∧ s = ofRanges l := by
  have hitems : ∀ {items : List Value} {l : List ByteRange},
      items.mapM ByteRange.ofValue? = some l ↔
        List.Forall₂ (fun r item => ByteRange.IsRecord r.first r.last item) l items := by
    intro items l
    rw [Json.mapM_eq_some_iff]
    simp only [ByteRange.ofValue?_eq_some_iff]
  unfold ofValue?
  rw [Option.map_eq_some_iff]
  constructor
  · rintro ⟨l, hl, rfl⟩
    obtain ⟨items, harray, hread⟩ := Option.bind_eq_some_iff.mp hl
    cases v with
    | array items' =>
      injection harray with harray
      subst harray
      exact ⟨l, ⟨_, rfl, hitems.mp hread⟩, rfl⟩
    | null | bool | natural | number | string | object => exact nomatch harray
  · rintro ⟨l, ⟨items, rfl, hall⟩, rfl⟩
    exact ⟨l, hitems.mpr hall, rfl⟩

theorem isListing_toValue (l : List ByteRange) : IsListing l (toValue ⟨l⟩) := by
  refine ⟨_, rfl, ?_⟩
  rw [List.forall₂_map_right_iff, List.forall₂_same]
  exact fun r _ => r.isRecord_toValue

theorem whole_toValue (s : RangeSet) : s.toValue.Whole := by
  refine Value.wholeItems_iff.mpr fun v hv => ?_
  obtain ⟨r, -, rfl⟩ := List.mem_map.mp hv
  exact r.whole_toValue

theorem ofValue?_toValue {s : RangeSet} (h : s.Canonical) : ofValue? s.toValue = some s :=
  ofValue?_eq_some_iff.mpr ⟨s.ranges, isListing_toValue s.ranges, (ofRanges_ranges h).symm⟩

theorem json_eq (s : RangeSet) :
    s.json = "[" ++ String.intercalate "," (s.ranges.map ByteRange.json) ++ "]" := by
  unfold json toValue
  rw [Value.compact, Value.compactItems_eq_map, List.map_map]
  rfl

/-- Reading a text is reading the document in it. -/
theorem ofJson?_eq_some_iff {text : String} :
    ofJson? text = some s ↔
      ∃ v l, Value.ofString? text = some v ∧ IsListing l v ∧ s = ofRanges l := by
  unfold ofJson?
  simp only [Option.bind_eq_some_iff, ofValue?_eq_some_iff]
  exact ⟨fun ⟨v, hv, l, hl⟩ => ⟨v, l, hv, hl⟩, fun ⟨v, l, hv, hl⟩ => ⟨v, hv, l, hl⟩⟩

theorem ofJson?_of_listing {text : String} {l : List ByteRange}
    (htext : Value.ofString? text = some v) (hl : IsListing l v) :
    ofJson? text = some (ofRanges l) :=
  ofJson?_eq_some_iff.mpr ⟨v, l, htext, hl, rfl⟩

/-- Any ranges that are written as a set are, whatever their order. -/
theorem ofJson?_json (l : List ByteRange) : ofJson? (json ⟨l⟩) = some (ofRanges l) :=
  ofJson?_of_listing (Value.ofString?_compact (whole_toValue ⟨l⟩)) (isListing_toValue l)

theorem ofJson?_json_of_canonical (h : s.Canonical) : ofJson? s.json = some s :=
  (ofJson?_json s.ranges).trans (congrArg some (ofRanges_ranges h))

/-- One record whose ends are the wrong way round is enough for an array to be refused. -/
theorem ofValue?_of_inverted {items : List Value} {item : Value} {first last : Nat}
    (hitem : item ∈ items) (h : ByteRange.IsRecord first last item) (hlt : last < first) :
    ofValue? (.array items) = none := by
  refine Option.eq_none_iff_forall_ne_some.mpr fun s hs => ?_
  obtain ⟨l, ⟨items', harray, hall⟩, -⟩ := ofValue?_eq_some_iff.mp hs
  injection harray with harray
  subst harray
  obtain ⟨i, hi, rfl⟩ := List.getElem_of_mem hitem
  have hread := ByteRange.ofValue?_eq_some_iff.mpr (hall.get (hall.length_eq ▸ hi) hi)
  exact nomatch (ByteRange.ofValue?_of_inverted h hlt).symm.trans hread

/-- Ranges and sets are read back as they were written, and from any document that says the same in
another layout, as lists in any order.  Nothing else is read: a range comes from a record of its two
ends and a set from an array of such records, so what is read is canonical and is read back in turn,
and one record with its ends the wrong way round spoils the whole text. -/
theorem json_round_trip :
    (∀ r : ByteRange, ByteRange.ofJson? r.json = some r ∧
      r.json =
        "\x7b\"start\":" ++ toString r.first ++ ",\"end\":" ++ toString r.last ++ "\x7d") ∧
    (∀ s : RangeSet, (s.Canonical → ofJson? s.json = some s) ∧
      s.json = "[" ++ String.intercalate "," (s.ranges.map ByteRange.json) ++ "]") ∧
    (∀ l : List ByteRange, ofJson? (json ⟨l⟩) = some (ofRanges l)) ∧
    (∀ (text : String) (v : Value) (l : List ByteRange), Value.Laid text.toList v.tokens →
      IsListing l v → ofJson? text = some (ofRanges l)) ∧
    (∀ (text : String) (r : ByteRange), ByteRange.ofJson? text = some r ↔
      ∃ v, Value.ofString? text = some v ∧ ByteRange.IsRecord r.first r.last v) ∧
    (∀ (text : String) (s : RangeSet), ofJson? text = some s ↔
      ∃ v l, Value.ofString? text = some v ∧ IsListing l v ∧ s = ofRanges l) ∧
    (∀ (text : String) (r : ByteRange), ByteRange.ofJson? text = some r →
      r.first ≤ r.last ∧ ByteRange.ofJson? r.json = some r) ∧
    (∀ (text : String) (s : RangeSet), ofJson? text = some s →
      (∀ r ∈ s.ranges, r.first ≤ r.last) ∧ s.Canonical ∧ ofJson? s.json = some s) ∧
    (∀ (text : String) (v : Value) (first last : Nat), Value.ofString? text = some v →
      ByteRange.IsRecord first last v → last < first → ByteRange.ofJson? text = none) ∧
    ∀ (text : String) (items : List Value) (item : Value) (first last : Nat),
      Value.ofString? text = some (.array items) → item ∈ items →
      ByteRange.IsRecord first last item → last < first → ofJson? text = none := by
  refine ⟨fun r => ⟨r.ofJson?_json, r.json_eq⟩, fun s => ⟨ofJson?_json_of_canonical, s.json_eq⟩,
    ofJson?_json, fun text v l htext => ofJson?_of_listing (Value.ofString?_of_laid htext),
    fun text r => ByteRange.ofJson?_eq_some_iff, fun text s => ofJson?_eq_some_iff,
    fun text r _ => ⟨r.first_le_last, r.ofJson?_json⟩, ?set, ?record, ?item⟩
  case set =>
    intro text s h
    obtain ⟨v, l, -, -, rfl⟩ := ofJson?_eq_some_iff.mp h
    have hcanonical := canonical_ofRanges l
    exact ⟨fun r _ => r.first_le_last, hcanonical, ofJson?_json_of_canonical hcanonical⟩
  case record =>
    intro text v first last htext hrecord hlt
    unfold ByteRange.ofJson?
    rw [htext]
    exact ByteRange.ofValue?_of_inverted hrecord hlt
  case item =>
    intro text items item first last htext hitem hrecord hlt
    unfold ofJson?
    rw [htext]
    exact ofValue?_of_inverted hitem hrecord hlt

theorem json_round_trip_mixed :
    let low : ByteRange := ⟨3, 5, by decide, by decide⟩
    let top : ByteRange := ⟨2 ^ 64 - 1, 2 ^ 64 - 1, by decide, by decide⟩
    let s : RangeSet := ⟨[low, top]⟩
    ofJson? ("[[18446744073709551615,18446744073709551615]," ++
      "\x7b\"end\":5,\"of\":[],\"start\":3\x7d]") = some s ∧
    s.Canonical ∧ ofJson? s.json = some s ∧
    ofJson? "[ [3,5]]" = some ⟨[low]⟩ ∧ ofJson? (json ⟨[low]⟩) = some ⟨[low]⟩ ∧
    ByteRange.ofJson? "[3,5]" = some low ∧ ByteRange.ofJson? low.json = some low ∧
    ByteRange.ofJson? "[9,7]" = none ∧ ofJson? "[[3,5],[9,7]]" = none := by
  intro low top s
  obtain ⟨-, hset, -, hlaid, hrange, hlisted, hranges, hsets, hrecord, hitem⟩ := json_round_trip
  have hdocument : Value.ofString? ("[[18446744073709551615,18446744073709551615]," ++
      "\x7b\"end\":5,\"of\":[],\"start\":3\x7d]") = some (.array
        [.array [.natural 18446744073709551615, .natural 18446744073709551615],
          .object [(some "end", .natural 5), (some "of", .array []), (some "start", .natural 3)]]) :=
    rfl
  have hread : ofJson? _ = some s :=
    (hlisted _ s).mpr ⟨_, [top, low], hdocument,
      ⟨_, rfl, .cons .array (.cons (.object (by decide) rfl rfl) .nil)⟩, by decide +kernel⟩
  have hspaced : Value.Laid "[ [3,5]]".toList
      (Value.array [.array [.natural 3, .natural 5]]).tokens :=
    .mark rfl (.blank rfl (.mark rfl (.scalar (v := .natural 3) rfl trivial
      (Json.delimited_cons rfl rfl _) (.mark rfl (.scalar (v := .natural 5) rfl trivial
        (Json.delimited_cons rfl rfl _) (.mark rfl (.mark rfl .nil)))))))
  have hlow : IsListing [low] (.array [.array [.natural 3, .natural 5]]) :=
    ⟨_, rfl, .cons .array .nil⟩
  have hrecorded : ByteRange.ofJson? "[3,5]" = some low := (hrange _ low).mpr ⟨_, rfl, .array⟩
  refine ⟨hread, (hsets _ s hread).2.1, (hsets _ s hread).2.2,
    (hlaid _ _ [low] hspaced hlow).trans rfl, (hset ⟨[low]⟩).1 (by decide), hrecorded,
    (hranges _ low hrecorded).2, ?_, ?_⟩
  · exact hrecord "[9,7]" _ 9 7 rfl .array (by decide)
  · exact hitem "[[3,5],[9,7]]" _ (.array [.natural 9, .natural 7]) 9 7 rfl
      (.tail _ (.head _)) .array (by decide)

end RangeSet
end ImageUpload
