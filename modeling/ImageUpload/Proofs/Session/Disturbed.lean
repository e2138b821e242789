import ImageUpload.Proofs.Session.Script
import ImageUpload.Proofs.Store.Disturbed

/-
Sessions over a disturbed store in memory.

Whatever is disturbed, the writes of a session fit the object.  So each attempt at a range
is answered as the disturbance says of it, and every script is that of a disturbance:
`follows_disturbance`.
-/

namespace ImageUpload

theorem Chunk.Whole.fits {source : Source} {c : Chunk} {page n : Nat} (h : c.Whole source)
    (hpage : 0 < page) (hpages : c.range.OnPages page) (hinside : c.range.last < n) :
    PageStore.refusal? page n c.range c.data = none := by
  unfold PageStore.refusal?
  rw [ByteRange.isAligned_of_onPages hpage hpages, if_neg nofun, if_neg (Nat.not_le.mpr hinside),
    if_neg (not_not.mpr h.2)]

/-- Each write of a range is answered as the disturbance says of the attempt it is. -/
theorem Replays.answers {s₀ s : DisturbedStore MemoryStore} {writes : List WriteRecord} {n : Nat}
    (h : Replays s₀ writes s) (hsized : s₀.Sized n)
    (hfits : ∀ w ∈ writes,
      PageStore.refusal? s₀.inner.page n w.chunk.range w.chunk.data = none) :
    s.Sized n ∧ s.disturbance = s₀.disturbance ∧ s.inner.page = s₀.inner.page ∧
      ∀ range, s.attempts range = s₀.attempts range +
          (writes.filter fun w => decide (w.chunk.range = range)).length ∧
        ∀ i w, (writes.filter fun w => decide (w.chunk.range = range))[i]? = some w →
          w.result = (s₀.disturbance.write range (s₀.attempts range + i + 1)).answer := by
  induction h with
  | start => exact ⟨hsized, rfl, rfl, fun _ => ⟨rfl, nofun⟩⟩
  | @write writes store store' c result h hwrite ih =>
    obtain ⟨ihsized, ihdisturbance, ihpage, ih⟩ := ih fun w hw => hfits w (List.mem_append_left _ hw)
    have hchunk := hfits ⟨c, result⟩ (List.mem_append_right _ List.mem_cons_self)
    rw [← ihpage] at hchunk
    obtain ⟨hresult, hsized', hdisturbance, hpage, hcalls⟩ :=
      DisturbedStore.write_fits ihsized hchunk hwrite
    refine ⟨hsized', hdisturbance.trans ihdisturbance, hpage.trans ihpage, fun range => ?_⟩
    obtain ⟨ihattempts, ihanswers⟩ := ih range
    rw [DisturbedStore.attempts_concat hcalls, List.filter_append, List.filter_singleton]
    by_cases hrange : c.range = range
    · have hmine : decide ((WriteRecord.mk c result).chunk.range = range) = true :=
        decide_eq_true hrange
      rw [if_pos hrange, hmine, cond_true, List.length_append, ihattempts]
      refine ⟨rfl, fun i w hw => ?_⟩
      rcases Nat.lt_or_ge i (writes.filter fun w => decide (w.chunk.range = range)).length with
        hlt | hge
      · rw [List.getElem?_append_left hlt] at hw
        exact ihanswers i w hw
      · rw [List.getElem?_append_right hge] at hw
        obtain ⟨hlast, rfl⟩ := List.getElem?_eq_some_iff.mp hw
        have hi : i = (writes.filter fun w => decide (w.chunk.range = range)).length := by
          have hone : i - (writes.filter fun w => decide (w.chunk.range = range)).length < 1 := hlast
          omega
        rw [hrange, ihattempts, ← hi, ihdisturbance] at hresult
        simpa using hresult
    · have hother : decide ((WriteRecord.mk c result).chunk.range = range) = false :=
        decide_eq_false hrange
      rw [if_neg hrange, hother, cond_false, List.append_nil]
      exact ⟨ihattempts, ihanswers⟩

namespace Session

variable {s : Session (DisturbedStore MemoryStore)} {r : Reader} {J : Float → Prop}

/-- The script of a session is what the disturbance makes of the writes. -/
theorem follows_disturbance {store₀ : DisturbedStore MemoryStore} {n : Nat}
    (h : s.Invariant J r store₀) (hsized : store₀.Sized n) (hcalls : store₀.calls = [])
    (hpages : ∀ range ∈ s.plan.ranges, range.OnPages store₀.inner.page)
    (hinside : ∀ range ∈ s.plan.ranges, range.last < n) :
    s.Follows fun range attempt => (store₀.disturbance.write range attempt).answer := by
  have hfits : ∀ w ∈ s.writes,
      PageStore.refusal? store₀.inner.page n w.chunk.range w.chunk.data = none := by
    intro w hw
    have hmem := List.mem_of_mem_take (h.range_mem_of_write hw)
    have hwhole := h.delivery.whole w.chunk (List.mem_append_left _ (h.mem_sent_of_write hw))
    exact hwhole.fits store₀.inner.page_pos (hpages _ hmem) (hinside _ hmem)
  obtain ⟨-, -, -, hanswers⟩ := h.replays.answers hsized hfits
  intro range i w hw
  have hnone : store₀.attempts range = 0 := by
    unfold DisturbedStore.attempts
    rw [hcalls]
    rfl
  have hresult := (hanswers range).2 i w hw
  rw [hnone, Nat.zero_add] at hresult
  exact hresult

end Session

namespace Upload

/-- Over a disturbed store in memory the writes of an upload follow the disturbance. -/
theorem follows_disturbance {options : UploadOptions} (parallelism : Option Nat) {source : Source}
    {present : RangeSet} {store : DisturbedStore MemoryStore} {p : Plan} {r : Reader}
    (hsize : source.size ≤ 2 ^ 64) (hpresent : present.Canonical)
    (hplan : plan options source present store = (.ok p, r)) (hsized : store.Sized source.size)
    (hcalls : store.calls = []) (actions : List SessionAction)
    (s : Session (DisturbedStore MemoryStore))
    (hrun : (Session.start options (workers options parallelism) p r store).run actions = some s) :
    s.Follows fun range attempt => (store.disturbance.write range attempt).answer := by
  obtain ⟨hserves, -⟩ := plan_ok hsize hpresent hplan
  have hJ := Session.jittered_of_run hrun
  obtain ⟨hp, -⟩ := Session.constants_run hJ hrun
  refine Session.follows_disturbance (Session.invariant_run hJ hrun) hsized hcalls ?_ ?_
  · rw [hp]
    exact hserves.onPages
  · rw [hp]
    exact hserves.inside

end Upload
end ImageUpload
