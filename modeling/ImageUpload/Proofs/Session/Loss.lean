import ImageUpload.Proofs.Session.Count

/-
What a session loses, told from its script alone.

A range is lost if the last of its attempts did not succeed, `loss?`.  At the end of a
session in which nothing fails but writes, the listener, the report of the pool and the
store all know of the same losses: `perm_losses`, `report_losses` and `perm_arrivals`.
-/

namespace ImageUpload

/-! ## Names -/

namespace ByteRange

theorem toList_id (r : ByteRange) :
    r.id.toList = Nat.toDigits 10 r.first ++ '-' :: Nat.toDigits 10 r.last := by
  have hdigits : ∀ n : Nat, (toString n).toList = Nat.toDigits 10 n := fun n => by
    rw [Nat.toString_eq_repr, Nat.toList_repr]
  have hdash : (toString "-").toList = ['-'] := rfl
  unfold id
  simp only [String.toList_append, hdigits, hdash, List.append_assoc]
  rfl

/-- No two ranges have one name. -/
theorem eq_of_id {a b : ByteRange} (h : a.id = b.id) : a = b := by
  have hminus : ∀ n, '-' ∉ Nat.toDigits 10 n := by
    intro n hmem
    have hdigit := Nat.isDigit_of_mem_toDigits (b := 10) (n := n) (c := '-') (by decide) (by decide)
      hmem
    exact absurd hdigit (by decide)
  have hlist := congrArg String.toList h
  rw [toList_id, toList_id, List.append_cons_inj_of_notMem (hminus _) (hminus _)] at hlist
  obtain ⟨hfirst, -, hlast⟩ := hlist
  have hnumber : ∀ {m n : Nat}, Nat.toDigits 10 m = Nat.toDigits 10 n → m = n := by
    intro m n hmn
    rw [← Nat.ofDigitChars_ten_toDigits (n := m), hmn, Nat.ofDigitChars_ten_toDigits]
  exact ByteRange.ext (hnumber hfirst) (hnumber hlast)

end ByteRange

theorem Session.rangeOf?_id {σ : Type} {s : Session σ} {range : ByteRange}
    (h : range ∈ s.plan.ranges) : s.rangeOf? range.id = some range := by
  unfold rangeOf?
  cases hfind : s.plan.ranges.find? (fun r => r.id == range.id) with
  | none => exact absurd (beq_self_eq_true _) (List.find?_eq_none.mp hfind range h)
  | some found =>
    have hid := List.find?_some hfind
    rw [ByteRange.eq_of_id (eq_of_beq hid)]

/-! ## Losses -/

/-- The loss of a range whose last attempt is number `k` of its script, if it is lost. -/
def loss? (script : WriteScript) (k : ByteRange → Nat) (range : ByteRange) : Option FailedRange :=
  match script range (k range) with
  | .ok _ => none
  | .error f => some ⟨range, k range, f.toAttempt.message StorageError.message⟩

theorem loss?_eq_none {script : WriteScript} {k : ByteRange → Nat} {range : ByteRange} :
    loss? script k range = none ↔ script range (k range) = .ok () := by
  unfold loss?
  cases script range (k range) with
  | ok u => exact ⟨fun _ => rfl, fun _ => rfl⟩
  | error f => exact ⟨nofun, nofun⟩

namespace Plan

/-- What the session loses of its plan. -/
def losses (script : WriteScript) (k : ByteRange → Nat) (p : Plan) : List FailedRange :=
  p.ranges.filterMap (loss? script k)

/-- What the session writes of its plan. -/
def arrivals (script : WriteScript) (k : ByteRange → Nat) (p : Plan) : List ByteRange :=
  p.ranges.filter fun range => (loss? script k range).isNone

/-- Every planned range arrives or is lost. -/
theorem sum_arrivals (script : WriteScript) (k : ByteRange → Nat) (p : Plan) :
    ((p.arrivals script k).map ByteRange.length).sum +
      ((p.losses script k).map fun f => f.range.length).sum = p.effective := by
  unfold arrivals losses effective
  induction p.ranges with
  | nil => rfl
  | cons range rest ih =>
    rw [List.map_cons, List.sum_cons]
    cases hresult : script range (k range) with
    | ok u =>
      have hloss := loss?_eq_none.mpr hresult
      rw [List.filter_cons_of_pos (by rw [hloss]; rfl), List.filterMap_cons_none hloss,
        List.map_cons, List.sum_cons]
      omega
    | error f =>
      have hloss : loss? script k range =
          some ⟨range, k range, f.toAttempt.message StorageError.message⟩ := by
        unfold loss?
        rw [hresult]
      rw [List.filter_cons_of_neg (by rw [hloss]; nofun), List.filterMap_cons_some hloss,
        List.map_cons, List.sum_cons]
      show _ + (range.length + _) = range.length + _
      omega

end Plan

/-! ## The end -/

namespace Session

variable {σ : Type} [PageStore σ] {s : Session σ} {r : Reader} {store₀ : σ} {script : WriteScript}
  {k : ByteRange → Nat} {last : ProgressRecord} {desks : List (Desk Chunk StorageError)}

/-- A settled request is published as a failure exactly if its range is lost, and the listener
makes that loss of it. -/
theorem Smooth.settled_loss (h : s.Smooth r store₀) (hfollows : s.Follows script)
    (hk : ∀ range ∈ s.plan.ranges, s.retry.Settles (script range) (k range))
    (haccounts : s.pool.Accounts Jittered (s.requests r) desks) {x : Settlement Chunk StorageError}
    (hx : x ∈ Desk.allSettled desks) :
    x.failure?.bind s.failedRange? = loss? script k x.job.request.work.range ∧
      x.failure?.isSome = (loss? script k x.job.request.work.range).isSome := by
  obtain ⟨d, hd, hx⟩ := List.mem_flatMap.mp hx
  obtain ⟨range, hrange, hrequest, hsettles, hfate, -⟩ :=
    h.invariant.settled_exact h.waits h.nodup hfollows h.not_cancelled haccounts hd hx
  have hmem := List.mem_of_getElem? hrange
  have hattempts := hsettles.unique (hk range hmem)
  rw [hattempts] at hfate
  have hrangeEq : x.job.request.work.range = range := by
    rw [hrequest]
    rfl
  have hid : x.job.request.id = range.id := by
    rw [hrequest]
    rfl
  rw [hrangeEq]
  unfold loss?
  cases hresult : script range (k range) with
  | ok u =>
    rw [hresult] at hfate
    have hnone : x.failure? = none := by
      unfold Settlement.failure?
      rw [hfate]
      rfl
    rw [hnone]
    exact ⟨rfl, rfl⟩
  | error f =>
    rw [hresult] at hfate
    have hsome : x.failure? = some ⟨range.id, k range, f.toAttempt⟩ := by
      unfold Settlement.failure?
      rw [hfate, hid, hattempts]
      rfl
    rw [hsome]
    refine ⟨?_, rfl⟩
    show (s.rangeOf? range.id).map _ = _
    rw [rangeOf?_id hmem]
    rfl

theorem Smooth.perm_ranges (h : s.Smooth r store₀) (hd : s.Done none last)
    (hphase : s.phase.chunk = []) (haccounts : s.pool.Accounts Jittered (s.requests r) desks) :
    ((Desk.allSettled desks).map fun x => x.job.request.work.range).Perm s.plan.ranges := by
  have hperm := (h.perm_settled hd hphase haccounts).map fun request => request.work.range
  rw [List.map_map, List.map_map] at hperm
  have hself : s.plan.ranges.map ((fun request => request.work.range) ∘
      fun range => requestOf s.retry (.of r.source range)) = s.plan.ranges :=
    List.map_id' s.plan.ranges
  rw [hself] at hperm
  exact hperm

/-- The listener has made one entry of each loss. -/
theorem Smooth.perm_losses (h : s.Smooth r store₀) (hfollows : s.Follows script)
    (hk : ∀ range ∈ s.plan.ranges, s.retry.Settles (script range) (k range))
    (hd : s.Done none last) (hphase : s.phase.chunk = []) :
    s.failed.Perm (s.plan.losses script k) := by
  obtain ⟨desks, haccounts⟩ := h.invariant.accounts
  have hfailures : s.pool.failures.Perm ((Desk.allSettled desks).filterMap Settlement.failure?) := by
    refine haccounts.failures.trans (.of_eq ?_)
    unfold Desk.allSettled
    rw [List.filterMap_flatMap]
    rfl
  have hfailed := h.invariant.heard.failed
  rw [hd.heard, List.take_length] at hfailed
  rw [hfailed]
  refine (hfailures.filterMap _).trans ?_
  rw [List.filterMap_filterMap]
  have hlosses : (Desk.allSettled desks).filterMap (fun x => x.failure?.bind s.failedRange?) =
      ((Desk.allSettled desks).map fun x => x.job.request.work.range).filterMap (loss? script k) := by
    rw [List.filterMap_map]
    exact List.filterMap_congr fun x hx => (h.settled_loss hfollows hk haccounts hx).1
  rw [hlosses]
  exact (h.perm_ranges hd hphase haccounts).filterMap _

/-- The report accounts for every request, and counts as many failures as there are losses. -/
theorem Smooth.report_losses (h : s.Smooth r store₀) (hfollows : s.Follows script)
    (hk : ∀ range ∈ s.plan.ranges, s.retry.Settles (script range) (k range))
    (hd : s.Done none last) (hphase : s.phase.chunk = []) :
    s.pool.report.completed + s.pool.report.failed.length = s.dispatched ∧
      s.pool.report.failed.length = (s.plan.losses script k).length := by
  obtain ⟨desks, haccounts⟩ := h.invariant.accounts
  have hreported : Desk.allReported desks = Desk.allSettled desks := by
    refine List.flatMap_congr fun d hdesk => ?_
    unfold Desk.reported
    rw [if_neg]
    intro hdead
    refine h.not_dead ?_
    rw [haccounts.workers, List.mem_map]
    refine ⟨d, hdesk, ?_⟩
    cases hw : d.worker with
    | dead => rfl
    | idle | running | waiting | left =>
      rw [hw] at hdead
      exact nomatch hdead
  have hranges := h.perm_ranges hd hphase haccounts
  refine ⟨?_, ?_⟩
  · rw [haccounts.report_size hd.gone, hreported, h.dispatched hd.toClosed hphase,
      ← hranges.length_eq, List.length_map]
  · have hfailed : s.pool.report.failed = (Tally.of (Desk.allSettled desks)).failed := by
      rw [← hreported, haccounts.report_eq hd.gone]
    have hlosses := (hranges.filterMap (loss? script k)).length_eq
    unfold Plan.losses
    rw [hfailed, ← hlosses, List.filterMap_map]
    show (((Desk.allSettled desks).filterMap Settlement.failure?).map Failure.id).length = _
    rw [List.length_map, List.length_filterMap_eq_countP, List.length_filterMap_eq_countP]
    refine List.countP_congr fun x hx => ?_
    rw [(h.settled_loss hfollows hk haccounts hx).2]
    rfl

/-- A range has been written as often as its script asks for. -/
theorem Smooth.length_writesOf (h : s.Smooth r store₀) (hfollows : s.Follows script)
    (hk : ∀ range ∈ s.plan.ranges, s.retry.Settles (script range) (k range))
    (hd : s.Done none last) (hphase : s.phase.chunk = []) {range : ByteRange}
    (hmem : range ∈ s.plan.ranges) : (s.writesOf range).length = k range := by
  obtain ⟨desks, haccounts⟩ := h.invariant.accounts
  obtain ⟨x, hx, hxrange⟩ := List.mem_map.mp ((h.perm_ranges hd hphase haccounts).mem_iff.mpr hmem)
  obtain ⟨d, hdesk, hxd⟩ := List.mem_flatMap.mp hx
  obtain ⟨range', hrange', hrequest, hsettles, -, hlength⟩ :=
    h.invariant.settled_exact h.waits h.nodup hfollows h.not_cancelled haccounts hdesk hxd
  have heq : range' = range := by
    rw [← hxrange, hrequest]
    rfl
  subst heq
  rw [h.invariant.outcomes_eq h.nodup hrange', List.length_map] at hlength
  rw [hlength]
  exact hsettles.unique (hk range' hmem)

theorem Smooth.perm_arrivals (h : s.Smooth r store₀) (hfollows : s.Follows script)
    (hk : ∀ range ∈ s.plan.ranges, s.retry.Settles (script range) (k range))
    (hd : s.Done none last) (hphase : s.phase.chunk = []) :
    s.acknowledged.Perm (s.plan.arrivals script k) := by
  have hnodup : (s.plan.arrivals script k).Nodup := h.nodup.filter _
  refine (List.perm_ext_iff_of_nodup (h.invariant.nodup_acknowledged h.nodup) hnodup).mpr ?_
  intro range
  unfold Plan.arrivals
  rw [mem_acknowledged, List.mem_filter, Option.isNone_iff_eq_none, loss?_eq_none]
  constructor
  · rintro ⟨w, hw, rfl, hok⟩
    have hmem := List.mem_of_mem_take (h.invariant.range_mem_of_write hw)
    refine ⟨hmem, ?_⟩
    have hwrite : w ∈ s.writesOf w.chunk.range :=
      List.mem_filter.mpr ⟨hw, decide_eq_true rfl⟩
    obtain ⟨i, hi⟩ := List.mem_iff_getElem?.mp hwrite
    have hlt := (List.getElem?_eq_some_iff.mp hi).1
    rw [h.length_writesOf hfollows hk hd hphase hmem] at hlt
    have hscript := hfollows _ i w hi
    rw [hok] at hscript
    have hlast : i + 1 = k w.chunk.range := by
      refine Nat.le_antisymm hlt (Nat.not_lt.mp fun hbefore => ?_)
      have hnot := (hk _ hmem).first (i + 1) (Nat.succ_pos i) hbefore
      rw [← hscript] at hnot
      exact nomatch hnot
    rw [← hlast, ← hscript]
  · rintro ⟨hmem, hok⟩
    -- the last of the writes is the one that the script lets succeed
    have hpos := (hk range hmem).pos
    have hlt : k range - 1 < (s.writesOf range).length := by
      rw [h.length_writesOf hfollows hk hd hphase hmem]
      omega
    have hw := List.getElem?_eq_getElem hlt
    have hresult := hfollows range _ _ hw
    rw [Nat.sub_add_cancel hpos, hok] at hresult
    obtain ⟨hwrite, hrange⟩ := List.mem_filter.mp (List.mem_of_getElem? hw)
    exact ⟨_, hwrite, of_decide_eq_true hrange, hresult⟩

end Session
end ImageUpload
