import ImageUpload.Store.Sidecar
import ImageUpload.Proofs.RangeSet.Text

/-
A sidecar is read as it was written: `ofBytes?_text`.
-/

namespace ImageUpload

open Json (Value)

namespace MetadataMap

theorem ext_entries {m m' : MetadataMap} (h : m.entries = m'.entries) : m = m' := by
  cases m
  cases m'
  congr

theorem entries_insert_of_new {m : MetadataMap} {name : String} (text : String)
    (h : name ∉ m.entries.map Prod.fst) :
    (m.insert name text).entries = m.entries ++ [(name, text)] := by
  show m.entries.filter _ ++ _ = _
  rw [List.filter_eq_self.mpr]
  intro e he
  refine decide_eq_true fun heq => h ?_
  rw [← heq]
  exact List.mem_map_of_mem he

/-- Entries of distinct names are all kept. -/
theorem ofList_entries (m : MetadataMap) : ofList m.entries = m := by
  have hfold : ∀ (l : List (String × String)) (k : MetadataMap),
      ((k.entries ++ l).map Prod.fst).Nodup →
      (l.foldl (fun m e => m.insert e.1 e.2) k).entries = k.entries ++ l := by
    intro l
    induction l with
    | nil => exact fun k _ => (List.append_nil _).symm
    | cons e l ih =>
      intro k hnodup
      have hnew : e.1 ∉ k.entries.map Prod.fst := by
        rw [List.map_append, List.nodup_append] at hnodup
        exact fun hmem => hnodup.2.2 _ hmem _ (List.mem_map_of_mem List.mem_cons_self) rfl
      have hentries := entries_insert_of_new e.2 hnew
      have happend : (k.insert e.1 e.2).entries ++ l = k.entries ++ e :: l := by
        rw [hentries, List.append_assoc]
        rfl
      rw [List.foldl_cons, ih _ (by rw [happend]; exact hnodup), happend]
  exact ext_entries (hfold m.entries empty m.distinct)

end MetadataMap

namespace Sidecar

theorem whole_toValue (c : Sidecar) : c.toValue.Whole := by
  refine ⟨trivial, ?_, ?_, c.written.whole_toValue, trivial⟩
  · refine Value.wholeMembers_iff.mpr fun m hm => ?_
    obtain ⟨e, -, rfl⟩ := List.mem_map.mp hm
    trivial
  · cases c.contentHash with
    | none => trivial
    | some hash => trivial

theorem metadata?_entries (m : MetadataMap) :
    metadata? (some (.object (m.entries.map fun (name, text) =>
      (some name, .string (some text))))) = some m := by
  have hentries : (m.entries.map fun (name, text) =>
      ((some name, .string (some text)) : Option String × Value)).mapM entry? = some m.entries :=
    Json.mapM_map_of_eq fun _ _ => rfl
  show (List.mapM entry? _).map MetadataMap.ofList = some m
  rw [hentries, Option.map_some, MetadataMap.ofList_entries]

theorem ofValue?_toValue {c : Sidecar} (hsize : c.size < 2 ^ 64) (hwritten : c.written.Canonical) :
    ofValue? c.toValue = some c := by
  obtain ⟨hash, hfields, hhash⟩ : ∃ hash,
      c.toValue.fields? ["size", "metadata", "content_hash", "written"] =
        some [some (.natural c.size),
          some (.object (c.metadata.entries.map fun (name, text) =>
            (some name, .string (some text)))),
          some hash, some c.written.toValue] ∧
      contentHash? (some hash) = some c.contentHash := by
    obtain ⟨size, metadata, contentHash, written⟩ := c
    cases contentHash with
    | none => exact ⟨_, rfl, rfl⟩
    | some hash => exact ⟨_, rfl, rfl⟩
  have hset : written? (some c.written.toValue) = some c.written :=
    RangeSet.ofValue?_toValue hwritten
  unfold ofValue?
  simp only [hfields, Value.asWord?_natural hsize, metadata?_entries, hhash, hset]
  rfl

/-- What was written of an object is read again. -/
theorem ofBytes?_text {c : Sidecar} (hsize : c.size < 2 ^ 64) (hwritten : c.written.Canonical) :
    ofBytes? c.text.toUTF8 = some c := by
  unfold ofBytes?
  rw [Value.ofBytes?_toUTF8]
  show (Value.ofString? c.toValue.pretty).bind ofValue? = some c
  rw [Value.ofString?_pretty c.whole_toValue]
  exact ofValue?_toValue hsize hwritten

end Sidecar
end ImageUpload
