import ImageUpload.Proofs.RangeSet.Carve
import ImageUpload.Proofs.Word
import ImageUpload.RangeSet.Words

/-
Sets of ranges changed in place and in words.

The runs of a canonical set end in ascending order, so a search by halves comes to the first run
that does not end before an offset, `search_eq`.  From there insertion swallows runs to the right
and at most one to the left, and replaces them by one: `insertInPlace?` cuts out nothing that is
not there and comes to what building the set anew comes to, `insert_rebuilds`.  What holes leave of
a range takes no sum or difference that a word could not hold, up to the largest offset, `cut?_eq`.
-/

namespace ImageUpload
namespace RangeSet

/-! ## Searching -/

/-- Halve the part of the list between two places until nothing is left of it.  A run that ends
before the offset is passed with all before it. -/
def bisect (l : List ByteRange) (o : Nat) : (steps low high : Nat) → Nat
  | 0, low, _ => low
  | steps + 1, low, high =>
    if low < high then
      let middle := low + (high - low) / 2
      if l[middle]?.any fun a => decide (a.last < o) then bisect l o steps (middle + 1) high
      else bisect l o steps low middle
    else low

/-- The place of the first run that does not end before the offset. -/
def search (l : List ByteRange) (o : Nat) : Nat :=
  bisect l o l.length 0 l.length

/-- In a canonical set the runs that end before an offset are those at the first places. -/
theorem last_lt_iff {l : List ByteRange} (h : Canonical ⟨l⟩) {o i : Nat} {a : ByteRange}
    (ha : l[i]? = some a) :
    a.last < o ↔ i < (l.takeWhile fun a => decide (a.last < o)).length := by
  have hsplit := List.takeWhile_append_dropWhile (l := l) (p := fun a => decide (a.last < o))
  constructor
  · intro hlast
    by_cases hi : i < (l.takeWhile fun a => decide (a.last < o)).length
    · exact hi
    · rw [← hsplit, List.getElem?_append_right (Nat.le_of_not_lt hi)] at ha
      have := le_last_of_mem_dropWhile h (List.mem_of_getElem? ha)
      omega
  · intro hi
    rw [← hsplit, List.getElem?_append_left hi] at ha
    exact last_lt_of_mem_takeWhile (List.mem_of_getElem? ha)

theorem bisect_eq {l : List ByteRange} (h : Canonical ⟨l⟩) {o steps low high : Nat}
    (hlow : low ≤ (l.takeWhile fun a => decide (a.last < o)).length)
    (hhigh : (l.takeWhile fun a => decide (a.last < o)).length ≤ high) (hl : high ≤ l.length)
    (hsteps : high ≤ low + steps) :
    bisect l o steps low high = (l.takeWhile fun a => decide (a.last < o)).length := by
  induction steps generalizing low high with
  | zero =>
    rw [bisect]
    omega
  | succ steps ih =>
    rw [bisect]
    split
    next hlt =>
      have hmiddle : low + (high - low) / 2 < l.length := by omega
      have hget := List.getElem?_eq_getElem hmiddle
      have hiff := last_lt_iff h (o := o) hget
      simp only [hget, Option.any_some, decide_eq_true_eq]
      split
      next hbefore => exact ih (hiff.mp hbefore) hhigh hl (by omega)
      next hbehind =>
        have hmiddle' := Nat.le_of_not_lt fun hlt => hbehind (hiff.mpr hlt)
        exact ih hlow hmiddle' (by omega) (by omega)
    next hge => omega

/-- The search comes to the end of the runs that a search from the front passes. -/
theorem search_eq {l : List ByteRange} (h : Canonical ⟨l⟩) (o : Nat) :
    search l o = (l.takeWhile fun a => decide (a.last < o)).length :=
  bisect_eq h (Nat.zero_le _) (List.takeWhile_sublist _).length_le (Nat.le_refl _) (by omega)

theorem drop_search {l : List ByteRange} (h : Canonical ⟨l⟩) (o : Nat) :
    l.drop (search l o) = l.dropWhile fun a => decide (a.last < o) := by
  have hsplit := List.takeWhile_append_dropWhile (l := l) (p := fun a => decide (a.last < o))
  rw [search_eq h]
  calc l.drop (l.takeWhile fun a => decide (a.last < o)).length
      = ((l.takeWhile fun a => decide (a.last < o)) ++
          l.dropWhile fun a => decide (a.last < o)).drop
            (l.takeWhile fun a => decide (a.last < o)).length := by rw [hsplit]
    _ = l.dropWhile fun a => decide (a.last < o) := List.drop_left

/-! ## Insertion -/

/-- Put a range in the place of those from `start` to before `stop`. -/
def splice? (l : List ByteRange) (start stop : Nat) (r : ByteRange) : Option (List ByteRange) :=
  if start ≤ stop ∧ stop ≤ l.length then some (l.take start ++ r :: l.drop stop) else none

/-- The run as it swallows ranges of which the first one stands at `place`, and the place where
it stops. -/
def swallow (run : ByteRange) (place : Nat) : List ByteRange → ByteRange × Nat
  | [] => (run, place)
  | r :: rest => if r.touches run then swallow (run.hull r) (place + 1) rest else (run, place)

/-- `insert` with places in the list of ranges. -/
def insert? (s : RangeSet) (r : ByteRange) : Option RangeSet :=
  let place := (s.ranges.takeWhile fun a => decide (a.last < r.first)).length
  let (run, stop) := swallow r place (s.ranges.drop place)
  if place = 0 then (splice? s.ranges place stop run).map RangeSet.mk
  else
    s.ranges[place - 1]?.bind fun neighbour =>
      if neighbour.touches run then
        (splice? s.ranges (place - 1) stop (run.hull neighbour)).map RangeSet.mk
      else (splice? s.ranges place stop run).map RangeSet.mk

theorem swallow_eq (run : ByteRange) (place : Nat) (l : List ByteRange) :
    ∃ k ≤ l.length, swallow run place l = ((absorb run l).1, place + k) ∧
      l.drop k = (absorb run l).2 := by
  induction l generalizing run place with
  | nil => exact ⟨0, Nat.le_refl 0, rfl, rfl⟩
  | cons r rest ih =>
    rw [swallow, absorb]
    split
    next _ =>
      obtain ⟨k, hk, hswallow, hdrop⟩ := ih (run.hull r) (place + 1)
      refine ⟨k + 1, Nat.succ_le_succ hk, ?_, hdrop⟩
      rw [hswallow, Nat.add_assoc, Nat.add_comm 1 k]
    next _ => exact ⟨0, Nat.zero_le _, rfl, rfl⟩

theorem splice?_append {l below above : List ByteRange} {k : Nat} (r : ByteRange)
    (hl : l = below ++ above) (hk : k ≤ above.length) :
    splice? l below.length (below.length + k) r = some (below ++ r :: above.drop k) := by
  subst hl
  unfold splice?
  rw [if_pos ⟨Nat.le_add_right .., by rw [List.length_append]; omega⟩, List.take_left,
    List.drop_length_add_append]

theorem insert?_eq (s : RangeSet) (r : ByteRange) : s.insert? r = some (s.insert r) := by
  have hsplit := List.takeWhile_append_dropWhile (l := s.ranges)
    (p := fun a => decide (a.last < r.first))
  unfold insert? insert
  generalize s.ranges.takeWhile (fun a => decide (a.last < r.first)) = below at hsplit ⊢
  generalize s.ranges.dropWhile (fun a => decide (a.last < r.first)) = above at hsplit ⊢
  obtain ⟨k, hk, hswallow, hdrop⟩ := swallow_eq r below.length above
  have habove : s.ranges.drop below.length = above := by rw [← hsplit, List.drop_left]
  simp only [habove, hswallow, ← hdrop]
  rcases List.eq_nil_or_concat below with rfl | ⟨front, neighbour, rfl⟩
  · rw [if_pos List.length_nil, splice?_append _ hsplit.symm hk]
    rfl
  · rw [List.concat_eq_append] at hsplit ⊢
    have hlength : (front ++ [neighbour]).length = front.length + 1 := List.length_append
    have hneighbour : s.ranges[front.length]? = some neighbour := by
      rw [← hsplit, List.append_assoc, List.getElem?_append_right (Nat.le_refl _), Nat.sub_self]
      rfl
    rw [if_neg (by omega), hlength, Nat.add_sub_cancel, hneighbour, Option.bind_some,
      List.getLast?_concat, List.dropLast_concat]
    simp only
    split
    next _ =>
      -- the neighbour is replaced too, so it stands with the ranges that are taken out
      have hapart : s.ranges = front ++ neighbour :: above := by
        rw [← hsplit, List.append_assoc]
        rfl
      rw [Nat.add_assoc, Nat.add_comm 1 k, splice?_append _ hapart (Nat.succ_le_succ hk)]
      rfl
    next _ =>
      rw [← hlength, splice?_append _ hsplit.symm hk]
      rfl

/-- The run grows to the right. -/
theorem le_last_swallow (run : ByteRange) (place : Nat) (l : List ByteRange) :
    run.last ≤ (swallow run place l).1.last := by
  induction l generalizing run place with
  | nil => exact Nat.le_refl _
  | cons r rest ih =>
    rw [swallow]
    split
    next _ => exact Nat.le_trans (Nat.le_max_left _ _) (ih (run.hull r) (place + 1))
    next _ => exact Nat.le_refl _

/-- The run with its beginning moved back to that of a neighbour on the left. -/
def extendBack (run neighbour : ByteRange) : ByteRange :=
  ⟨min run.first neighbour.first, run.last,
    Nat.le_trans (Nat.min_le_left _ _) run.first_le_last, run.last_lt⟩

theorem extendBack_eq {run neighbour : ByteRange} (h : neighbour.last ≤ run.last) :
    extendBack run neighbour = run.hull neighbour :=
  ByteRange.eq_of_ends rfl (Nat.max_eq_left h).symm

/-- Insertion that searches by halves, and that moves back no more than the beginning of the run
when a neighbour on the left touches it. -/
def insertInPlace? (s : RangeSet) (r : ByteRange) : Option RangeSet :=
  let place := search s.ranges r.first
  let (run, stop) := swallow r place (s.ranges.drop place)
  if place = 0 then (splice? s.ranges place stop run).map RangeSet.mk
  else
    s.ranges[place - 1]?.bind fun neighbour =>
      if neighbour.touches run then
        (splice? s.ranges (place - 1) stop (extendBack run neighbour)).map RangeSet.mk
      else (splice? s.ranges place stop run).map RangeSet.mk

theorem insertInPlace?_eq {s : RangeSet} (h : s.Canonical) (r : ByteRange) :
    s.insertInPlace? r = some (s.insert r) := by
  rw [← insert?_eq]
  unfold insertInPlace? insert?
  simp only [search_eq h]
  have hgrown := le_last_swallow r (s.ranges.takeWhile fun a => decide (a.last < r.first)).length
    (s.ranges.drop (s.ranges.takeWhile fun a => decide (a.last < r.first)).length)
  generalize hswallow : swallow r _ (s.ranges.drop _) = p at hgrown ⊢
  obtain ⟨run, stop⟩ := p
  split
  next _ => rfl
  next hplace =>
    refine Option.bind_congr fun neighbour hneighbour => ?_
    have hbefore : neighbour.last < r.first := (last_lt_iff h hneighbour).mpr (by omega)
    have hend : r.last ≤ run.last := hgrown
    have := r.first_le_last
    rw [extendBack_eq (by omega)]

/-- Insertion in place, on whichever side it merges and however many runs it swallows, comes to
what building the set anew comes to, and sets that are built have the bytes of the ranges that they
are built of.  So the order of insertions makes no difference. -/
theorem insert_rebuilds {s : RangeSet} (h : s.Canonical) (r : ByteRange) :
    s.insertInPlace? r = some (ofRanges (s.ranges ++ [r])) ∧
      s.insert r = ofRanges (s.ranges ++ [r]) ∧
      (∀ l o, (ofRanges l).Has o ↔ ∃ a ∈ l, a.Has o) ∧
      (∀ l m : List ByteRange, l.Perm m → l.foldl insert empty = ofRanges m) ∧
      ∀ t o, (s.union t).Has o ↔ s.Has o ∨ t.Has o := by
  refine ⟨?_, insert_eq_ofRanges h r, fun l o => has_ofRanges, fun l m hperm => ?_,
    fun t o => has_union⟩
  · rw [insertInPlace?_eq h, insert_eq_ofRanges h]
  · refine (canonical_foldl_insert canonical_empty).ext (canonical_ofRanges m) fun o => ?_
    rw [has_foldl_insert, has_ofRanges]
    simp only [hperm.mem_iff, or_iff_right (not_has_empty o)]

/-- Runs on both sides that the range touches and one that it swallows, up to the largest offset.
The ranges may as well be inserted one after another from the right to the left. -/
theorem insert_rebuilds_bridging :
    let low : ByteRange := ⟨0, 9, by decide, by decide⟩
    let inner : ByteRange := ⟨40, 49, by decide, by decide⟩
    let top : ByteRange := ⟨2 ^ 64 - 3, 2 ^ 64 - 1, by decide, by decide⟩
    let bridge : ByteRange := ⟨10, 2 ^ 64 - 4, by decide, by decide⟩
    let s : RangeSet := ⟨[low, inner, top]⟩
    let all : RangeSet := ⟨[⟨0, 2 ^ 64 - 1, by decide, by decide⟩]⟩
    s.Canonical ∧ s.insertInPlace? bridge = some all ∧ s.insert bridge = all ∧
      [top, inner, low, bridge].foldl insert empty = all ∧ (s.union all).Has (2 ^ 64 - 1) := by
  intro low inner top bridge s all
  have hs : s.Canonical := by decide
  obtain ⟨hplace, hinsert, -, horder, hunion⟩ := insert_rebuilds hs bridge
  have hbuilt : ofRanges (s.ranges ++ [bridge]) = all := by decide +kernel
  have hperm : [top, inner, low, bridge].Perm (s.ranges ++ [bridge]) := by decide +kernel
  refine ⟨hs, hbuilt ▸ hplace, hbuilt ▸ hinsert, hbuilt ▸ horder _ _ hperm, ?_⟩
  exact (hunion all _).mpr (.inr (by decide +kernel))

/-! ## Subtraction -/

theorem front?_eq {r hole : ByteRange} (h : hole.first ≤ r.last) :
    front? r.first hole = some (r.before hole.first) := by
  have hlast := hole.first_le_last
  have hword := hole.last_lt
  unfold front? ByteRange.before
  by_cases hlt : r.first < hole.first
  · rw [if_pos hlt, dif_pos ⟨hlt, h⟩, Word.sub?_eq (by omega), Option.bind_some,
      ByteRange.between?_eq (by omega) (by omega)]
    rfl
  · rw [if_neg hlt, dif_neg fun hboth => hlt hboth.1]

theorem cut?_eq (r : ByteRange) (holes : List ByteRange) :
    cut? r.last r.first holes = some (cut r holes) := by
  have hwhole : ∀ q : ByteRange, (ByteRange.between? q.first q.last).map (fun r => [r]) = some [q] := by
    intro q
    rw [ByteRange.between?_eq q.first_le_last q.last_lt]
    rfl
  induction holes generalizing r with
  | nil => exact hwhole r
  | cons hole rest ih =>
    rw [cut?, cut]
    split
    next _ => exact hwhole r
    next hge =>
      rw [front?_eq (Nat.not_lt.mp hge), Option.bind_some]
      have hr := r.last_lt
      by_cases hlast : hole.last < r.last
      · have hnext : hole.last + 1 ≤ r.last := hlast
        have hrest : cut? r.last (hole.last + 1) rest = _ := ih ⟨_, r.last, hnext, r.last_lt⟩
        rw [Word.add?_eq (by omega), dif_pos hlast]
        simp only
        rw [if_pos hnext, hrest]
        rfl
      · -- the hole reaches the end of the range, and maybe the largest offset of all
        rw [dif_neg hlast, List.append_nil]
        split
        next _ => rfl
        next next hnext =>
          unfold Word.add? at hnext
          split at hnext
          next _ =>
            injection hnext with hnext
            rw [if_neg (by omega)]
          next _ => exact absurd hnext (Option.some_ne_none next).symm

theorem carve?_eq (s : RangeSet) (r : ByteRange) : s.carve? r = some (s.carve r) :=
  cut?_eq r _

/-- Subtraction in words.  For each run the search enters the holes anew. -/
def subtract? (s t : RangeSet) : Option RangeSet :=
  (s.ranges.mapM fun r => cut? r.last r.first (t.ranges.drop (search t.ranges r.first))).map
    fun parts => ⟨parts.flatten⟩

theorem subtract?_eq (s : RangeSet) {t : RangeSet} (h : t.Canonical) :
    s.subtract? t = some (s.subtract t) := by
  have hcarve : ∀ r : ByteRange,
      cut? r.last r.first (t.ranges.drop (search t.ranges r.first)) = some (t.carve r) := by
    intro r
    rw [drop_search h]
    exact t.carve?_eq r
  have hall : (s.ranges.mapM fun r => some (t.carve r)) = some (s.ranges.map t.carve) :=
    List.mapM_pure
  simp only [subtract?, hcarve, hall, Option.map_some]
  rfl

end RangeSet
end ImageUpload
