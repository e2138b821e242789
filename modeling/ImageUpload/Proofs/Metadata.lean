import ImageUpload.Metadata.Entry
import ImageUpload.Proofs.Base64
import ImageUpload.Proofs.Json.Document
import ImageUpload.Proofs.Time.Rfc3339

/-
The identity of an image survives its encoding: `ofEntries_of_subset`.

The three formats are inverted one by one.  The letters give the bytes of the document, the
document gives the four fields, and the text of the last change gives the instant.
-/

namespace ImageUpload

open Json (Value)

namespace MetadataMap

theorem get?_of_mem {m : MetadataMap} {name text : String} (h : (name, text) ∈ m.entries) :
    m.get? name = some text := by
  obtain ⟨entries, hdistinct⟩ := m
  show entries.lookup name = some text
  induction entries with
  | nil => exact absurd h List.not_mem_nil
  | cons e entries ih =>
    obtain ⟨hnew, hdistinct⟩ := List.nodup_cons.mp hdistinct
    rcases List.mem_cons.mp h with rfl | hmem
    · exact List.lookup_cons_self
    · have hne : name ≠ e.1 := fun heq => hnew (heq ▸ List.mem_map_of_mem hmem)
      rw [List.lookup_cons, beq_eq_false_iff_ne.mpr hne]
      exact ih hdistinct hmem

/-- An entry stays when another name is added. -/
theorem mem_insert_of_ne {m : MetadataMap} {e : String × String} {name : String} (text : String)
    (h : e ∈ m.entries) (hne : e.1 ≠ name) : e ∈ (m.insert name text).entries :=
  List.mem_append_left _ (List.mem_filter.mpr ⟨h, decide_eq_true hne⟩)

end MetadataMap

namespace ImageMetadata

theorem whole_toValue (m : ImageMetadata) : m.toValue.Whole :=
  ⟨trivial, trivial, trivial, trivial, trivial⟩

theorem ofValue?_toValue (m : ImageMetadata) : ofValue? m.toValue = some m := by
  have hfields : m.toValue.fields? ["file_name", "size", "last_modified", "content_hash"] =
      some [some (.string (some m.fileName)), some (.natural m.size),
        some (.string (some (Rfc3339.zulu m.lastModified))),
        some (.string (some m.contentHash))] := rfl
  simp only [ofValue?, hfields, Value.asString?, Option.bind_some, Rfc3339.ofString?_zulu,
    dif_pos m.size_lt]

theorem ofBytes?_json (m : ImageMetadata) :
    (Value.ofBytes? m.json.toUTF8).bind ofValue? = some m := by
  rw [Value.ofBytes?_toUTF8, json, Value.ofString?_compact m.whole_toValue, Option.bind_some,
    ofValue?_toValue]

theorem mem_toEntries (m : ImageMetadata) :
    (key, Base64.encode m.json.toUTF8) ∈ m.toEntries.entries :=
  List.mem_append_right _ (List.mem_singleton_self _)

theorem compare_eq_nil {remote here : ImageMetadata} :
    remote.compare here = [] ↔ remote.size = here.size ∧ remote.contentHash = here.contentHash ∧
      remote.lastModified = here.lastModified := by
  by_cases hsize : remote.size = here.size <;>
    by_cases hhash : remote.contentHash = here.contentHash <;>
      by_cases htime : remote.lastModified = here.lastModified <;>
        simp [compare, hsize, hhash, htime]

/-- A map that has the entry of an image, whatever else it has, gives the identity of that
image.  What is compared with another image is therefore the identity itself. -/
theorem ofEntries_of_subset (m : ImageMetadata) (entries : MetadataMap)
    (hentry : m.toEntries.entries ⊆ entries.entries) :
    ofEntries entries = .ok (some m) ∧
      ∀ decoded here, ofEntries entries = .ok (some decoded) →
        (decoded.compare here = [] ↔ m.size = here.size ∧ m.contentHash = here.contentHash ∧
          m.lastModified = here.lastModified) := by
  have hdecoded : ofEntries entries = .ok (some m) := by
    have hletters := MetadataMap.get?_of_mem (hentry m.mem_toEntries)
    simp only [ofEntries, hletters, Base64.decode?_encode, ofBytes?_json]
  refine ⟨hdecoded, fun decoded here h => ?_⟩
  rw [hdecoded] at h
  cases h
  exact compare_eq_nil

/-- A name with every kind of character that is escaped or not, and a leap second at the end
of 1969. -/
def awkward : ImageMetadata :=
  ⟨"a \"disk\" \\ 𝒳\n\t\u0001.img", 2 ^ 64 - 1, ⟨-1, 1999999999, by decide, by decide, by decide,
    by decide⟩, "é'\u007f", by decide⟩

theorem ofEntries_of_subset_awkward :
    let entries := (awkward.toEntries.insert "owner" "someone").insert "" "%%%"
    awkward.toEntries.entries ⊆ entries.entries ∧ ofEntries entries = .ok (some awkward) ∧
      ∀ here : ImageMetadata, awkward.compare here = [] ↔
        awkward.size = here.size ∧ awkward.contentHash = here.contentHash ∧
          awkward.lastModified = here.lastModified := by
  intro entries
  have hentry : awkward.toEntries.entries ⊆ entries.entries := by
    intro e he
    have hkey : e.1 = key := by rw [List.mem_singleton.mp he]
    exact MetadataMap.mem_insert_of_ne _ (MetadataMap.mem_insert_of_ne _ he
      (by rw [hkey]; decide)) (by rw [hkey]; decide)
  have hdecoded := ofEntries_of_subset awkward entries hentry
  exact ⟨hentry, hdecoded.1, fun here => hdecoded.2 awkward here hdecoded.1⟩

end ImageMetadata
end ImageUpload
