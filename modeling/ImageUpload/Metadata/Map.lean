namespace ImageUpload

/-- Texts under distinct names, in the order in which the names first came. -/
structure MetadataMap where
  entries : List (String × String)
  distinct : (entries.map Prod.fst).Nodup
  deriving DecidableEq

namespace MetadataMap

def empty : MetadataMap :=
  ⟨[], List.nodup_nil⟩

instance : Inhabited MetadataMap := ⟨empty⟩

def get? (m : MetadataMap) (name : String) : Option String :=
  m.entries.lookup name

/-- Put a text under a name.  What was there before is gone. -/
def insert (m : MetadataMap) (name text : String) : MetadataMap where
  entries := m.entries.filter (fun e => decide (e.1 ≠ name)) ++ [(name, text)]
  distinct := by
    have kept : ((m.entries.filter (fun e => decide (e.1 ≠ name))).map Prod.fst).Nodup :=
      m.distinct.sublist ((List.filter_sublist).map _)
    simp only [List.map_append, List.map_cons, List.map_nil]
    refine List.nodup_append.2 ⟨kept, by simp, ?_⟩
    intro a ha b hb
    obtain ⟨e, he, rfl⟩ := List.mem_map.1 ha
    have hne : e.1 ≠ name := by simpa using (List.mem_filter.1 he).2
    rw [List.mem_singleton.1 hb]
    exact hne

/-- Of several texts under one name the last counts. -/
def ofList (l : List (String × String)) : MetadataMap :=
  l.foldl (fun m e => m.insert e.1 e.2) empty

end MetadataMap
end ImageUpload
