import ImageUpload.Disk.FileTree

/-
Where a path leads, and what becomes of the file at a location.

A path that can be followed leads to the place its names spell, `target`, whatever the
tree is: `locate_ok`.  So two paths of different targets never meet, and what an operation
does to the files is told location by location.
-/

namespace ImageUpload

/-! ## Targets -/

/-- The location that one name leads to. -/
def Location.enter (l : Location) (name : String) : Location :=
  if Path.stays name then l else if name = ".." then l.dropLast else l ++ [name]

/-- The location that a path spells. -/
def Path.target (p : Path) : Location :=
  p.foldl Location.enter []

theorem Path.target_concat (p : Path) (name : String) :
    Path.target (p ++ [name]) = (Path.target p).enter name :=
  List.foldl_append

namespace FileTree

theorem followFrom_ok {t : FileTree} {l k : Location} {names : List String}
    (h : t.followFrom l names = .ok k) : k = names.foldl Location.enter l := by
  induction names generalizing l with
  | nil => exact (Except.ok.inj h).symm
  | cons name rest ih =>
    unfold followFrom at h
    rw [List.foldl_cons]
    unfold Location.enter
    split at h
    next => exact nomatch h
    next => exact nomatch h
    next =>
      split at h
      next hstays =>
        rw [if_pos hstays]
        exact ih h
      next hmoves =>
        rw [if_neg hmoves]
        split at h
        next hback =>
          rw [if_pos hback]
          exact ih h
        next hdown =>
          rw [if_neg hdown]
          split at h
          next => exact nomatch h
          next => exact ih h

theorem locate_ok {t : FileTree} {p : Path} {l : Location} (h : t.locate p = .ok l) :
    l = p.target := by
  unfold locate at h
  split at h
  next => exact nomatch h
  next => exact followFrom_ok h

/-! ## Nodes -/

theorem lookup_filter_ne (nodes : List (Location × Node)) {k l : Location} (h : k ≠ l) :
    (nodes.filter fun e => decide (e.1 ≠ l)).lookup k = nodes.lookup k := by
  induction nodes with
  | nil => rfl
  | cons e rest ih =>
    by_cases he : e.1 = l
    · have hk : (k == e.1) = false := beq_eq_false_iff_ne.mpr (he ▸ h)
      rw [List.filter_cons_of_neg (by simp [he]), List.lookup_cons, hk]
      exact ih
    · rw [List.filter_cons_of_pos (by simp [he]), List.lookup_cons, List.lookup_cons, ih]

theorem lookup_filter_self (nodes : List (Location × Node)) (l : Location) :
    (nodes.filter fun e => decide (e.1 ≠ l)).lookup l = none := by
  refine List.lookup_eq_none_iff.mpr fun e he => ?_
  have hne := of_decide_eq_true (List.mem_filter.mp he).2
  exact bne_iff_ne.mpr (Ne.symm hne)

theorem node?_eq_lookup (t : FileTree) {l : Location} (h : l ≠ []) :
    t.node? l = t.nodes.lookup l := by
  cases l with
  | nil => exact absurd rfl h
  | cons name rest => rfl

theorem node?_set (t : FileTree) {l : Location} (hl : l ≠ []) (n : Node) (k : Location) :
    (t.set l n).node? k = if k = l then some n else t.node? k := by
  by_cases hk : k = l
  · rw [if_pos hk, hk, node?_eq_lookup _ hl]
    exact List.lookup_cons_self
  · rw [if_neg hk]
    cases k with
    | nil => rfl
    | cons name rest =>
      have hne : (name :: rest == l) = false := beq_eq_false_iff_ne.mpr hk
      show List.lookup (name :: rest) ((l, n) :: _) = _
      rw [List.lookup_cons, hne]
      exact lookup_filter_ne t.nodes hk

theorem node?_erase (t : FileTree) {l : Location} (hl : l ≠ []) (k : Location) :
    (t.erase l).node? k = if k = l then none else t.node? k := by
  by_cases hk : k = l
  · rw [if_pos hk, hk, node?_eq_lookup _ hl]
    exact lookup_filter_self t.nodes l
  · rw [if_neg hk]
    cases k with
    | nil => rfl
    | cons name rest => exact lookup_filter_ne t.nodes hk

/-! ## Files -/

/-- The bytes of the file at a location. -/
def bytesAt? (t : FileTree) (l : Location) : Option SparseBytes :=
  match t.node? l with
  | some (.file bytes) => some bytes
  | _ => none

theorem bytesAt?_eq_some {t : FileTree} {l : Location} {bytes : SparseBytes} :
    t.bytesAt? l = some bytes ↔ t.node? l = some (.file bytes) := by
  unfold bytesAt?
  split
  next b h =>
    rw [h]
    exact ⟨fun hb => by rw [Option.some.inj hb], fun hb => by cases hb; rfl⟩
  next h => exact ⟨nofun, fun hb => absurd hb (h bytes)⟩

theorem bytesAt?_set (t : FileTree) {l : Location} (hl : l ≠ []) (bytes : SparseBytes)
    (k : Location) :
    (t.set l (.file bytes)).bytesAt? k = if k = l then some bytes else t.bytesAt? k := by
  unfold bytesAt?
  rw [node?_set t hl]
  by_cases hk : k = l
  · simp only [if_pos hk]
  · simp only [if_neg hk]

theorem bytesAt?_erase (t : FileTree) {l : Location} (hl : l ≠ []) (k : Location) :
    (t.erase l).bytesAt? k = if k = l then none else t.bytesAt? k := by
  unfold bytesAt?
  rw [node?_erase t hl]
  by_cases hk : k = l
  · simp only [if_pos hk]
  · simp only [if_neg hk]

/-- A new directory takes the place of no file. -/
theorem bytesAt?_set_directory {t : FileTree} {l : Location} (hl : l ≠ [])
    (hnone : t.node? l = none) (k : Location) : (t.set l .directory).bytesAt? k = t.bytesAt? k := by
  unfold bytesAt?
  rw [node?_set t hl]
  by_cases hk : k = l
  · rw [hk, if_pos rfl, hnone]
  · simp only [if_neg hk]

/-- The root is no file. -/
theorem ne_root_of_bytesAt? {t : FileTree} {l : Location} {bytes : SparseBytes}
    (h : t.bytesAt? l = some bytes) : l ≠ [] := by
  rintro rfl
  exact nomatch h

theorem find_ok {t : FileTree} {p : Path} {l : Location} {bytes : SparseBytes}
    (h : t.find p = .ok (l, bytes)) : l = p.target ∧ t.bytesAt? p.target = some bytes := by
  unfold find at h
  split at h
  next => exact nomatch h
  next k hlocate =>
    split at h
    next => exact nomatch h
    next => exact nomatch h
    next b hnode =>
      obtain ⟨rfl, rfl⟩ := Prod.mk.inj (Except.ok.inj h)
      have htarget := locate_ok hlocate
      exact ⟨htarget, htarget ▸ bytesAt?_eq_some.mpr hnode⟩

theorem read_ok {t : FileTree} {p : Path} {bytes : SparseBytes} (h : t.read p = .ok bytes) :
    t.bytesAt? p.target = some bytes := by
  unfold read at h
  cases hfind : t.find p with
  | error f =>
    rw [hfind] at h
    exact nomatch h
  | ok found =>
    obtain ⟨l, b⟩ := found
    rw [hfind] at h
    rw [← Except.ok.inj h]
    exact (find_ok hfind).2

/-! ## Changes -/

/-- Where a file is put, something may stand that is no directory. -/
theorem put_cases {t t' : FileTree} {p : Path} {bytes : SparseBytes} (h : t.put p bytes = .ok t') :
    t.locate p = .ok p.target ∧ p.target ≠ [] ∧ t.node? p.target ≠ some .directory ∧
      t' = t.set p.target (.file bytes) := by
  unfold put at h
  split at h
  next => exact nomatch h
  next l hlocate =>
    obtain rfl := locate_ok hlocate
    split at h
    next => exact nomatch h
    next hnode =>
      refine ⟨hlocate, fun hroot => hnode ?_, hnode, (Except.ok.inj h).symm⟩
      rw [hroot]
      rfl

theorem alter_cases {t t' : FileTree} {p : Path} {f : SparseBytes → SparseBytes}
    (h : t.alter p f = .ok t') : ∃ bytes, t.find p = .ok (p.target, bytes) ∧
      t' = t.set p.target (.file (f bytes)) := by
  unfold alter at h
  cases hfind : t.find p with
  | error e =>
    rw [hfind] at h
    exact nomatch h
  | ok found =>
    obtain ⟨l, bytes⟩ := found
    obtain rfl := (find_ok hfind).1
    rw [hfind] at h
    exact ⟨bytes, rfl, (Except.ok.inj h).symm⟩

theorem rename_cases {t t' : FileTree} {old new : Path} (h : t.rename old new = .ok t') :
    ∃ bytes, t.find old = .ok (old.target, bytes) ∧
      (t.erase old.target).put new bytes = .ok t' := by
  unfold rename at h
  split at h
  next => exact nomatch h
  next l bytes hfind =>
    obtain rfl := (find_ok hfind).1
    exact ⟨bytes, hfind, h⟩

theorem put_ok {t t' : FileTree} {p : Path} {bytes : SparseBytes} (h : t.put p bytes = .ok t')
    (k : Location) : t'.bytesAt? k = if k = p.target then some bytes else t.bytesAt? k := by
  obtain ⟨-, hroot, -, rfl⟩ := put_cases h
  exact bytesAt?_set t hroot bytes k

theorem alter_ok {t t' : FileTree} {p : Path} {f : SparseBytes → SparseBytes}
    (h : t.alter p f = .ok t') :
    ∃ bytes, t.bytesAt? p.target = some bytes ∧
      ∀ k, t'.bytesAt? k = if k = p.target then some (f bytes) else t.bytesAt? k := by
  obtain ⟨bytes, hfind, rfl⟩ := alter_cases h
  have hbytes := (find_ok hfind).2
  exact ⟨bytes, hbytes, bytesAt?_set t (ne_root_of_bytesAt? hbytes) (f bytes)⟩

theorem rename_ok {t t' : FileTree} {old new : Path} (h : t.rename old new = .ok t') :
    ∃ bytes, t.bytesAt? old.target = some bytes ∧
      ∀ k, t'.bytesAt? k = if k = new.target then some bytes
        else if k = old.target then none else t.bytesAt? k := by
  obtain ⟨bytes, hfind, hput⟩ := rename_cases h
  have hbytes := (find_ok hfind).2
  refine ⟨bytes, hbytes, fun k => ?_⟩
  rw [put_ok hput, bytesAt?_erase t (ne_root_of_bytesAt? hbytes)]

/-! ## Directories -/

/-- What every new directory relates, all directories along a path relate. -/
theorem makeDirectories_related {R : FileTree → FileTree → Prop} (hrefl : ∀ t, R t t)
    (htrans : ∀ {t t' t''}, R t t' → R t' t'' → R t t'')
    (hset : ∀ (t : FileTree) (l : Location), l ≠ [] → t.node? l = none →
      R t (t.set l .directory)) (t : FileTree) (p : Path) : R t (t.makeDirectories p).2 := by
  have hfrom : ∀ (names : List String) (t : FileTree) (l : Location),
      R t (t.makeDirectoriesFrom l names).2 := by
    intro names
    induction names with
    | nil => exact fun t _ => hrefl t
    | cons name rest ih =>
      intro t l
      unfold makeDirectoriesFrom
      split
      next => exact ih t l
      next =>
        split
        next => exact ih t l.dropLast
        next =>
          split
          next => exact hrefl t
          next =>
            split
            next => exact hrefl t
            next => exact ih t (l ++ [name])
            next hnone => exact htrans (hset t _ (List.concat_ne_nil name l) hnone) (ih _ _)
  unfold makeDirectories
  split
  next => exact hrefl t
  next => exact hfrom p t []

theorem bytesAt?_makeDirectories (t : FileTree) (p : Path) (k : Location) :
    (t.makeDirectories p).2.bytesAt? k = t.bytesAt? k :=
  makeDirectories_related (R := fun t t' => t'.bytesAt? k = t.bytesAt? k) (fun _ => rfl)
    (fun h h' => h'.trans h) (fun _ _ hroot hnone => bytesAt?_set_directory hroot hnone k) t p

end FileTree
end ImageUpload
