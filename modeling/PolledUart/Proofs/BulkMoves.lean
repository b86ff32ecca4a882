import PolledUart.Fifo

/-!
# Moving bytes in bulk

A bulk move stops at the first byte that is refused, so it moves as many bytes as were offered, are
there and fit, the oldest first. It leaves what the single moves it stands for leave. A cable that
stopped for want of bytes or of room does not move on, and one that stopped at its limit goes on
where it was, so that two turns of it are one.
-/

set_option autoImplicit false

namespace PolledUart.PortFifos

variable {n : Nat}

def executeAll (p : PortFifos n) :
    List FifoCommand → List (Except QueueError FifoReply) × PortFifos n
  | [] => ([], p)
  | command :: rest =>
    let (reply, p) := p.execute command
    let (replies, p) := p.executeAll rest
    (reply :: replies, p)

@[simp] theorem side_withSide (p : PortFifos n) (f : ByteFifo n) (s : FifoSide) :
    (p.withSide f s).side s = f := by
  cases s <;> rfl

@[simp] theorem withSide_side (p : PortFifos n) (s : FifoSide) : p.withSide (p.side s) s = p := by
  cases s <;> rfl

@[simp] theorem withSide_withSide (p : PortFifos n) (f g : ByteFifo n) (s : FifoSide) :
    (p.withSide f s).withSide g s = p.withSide g s := by
  cases s <;> rfl

theorem executeAll_push (p : PortFifos n) (s : FifoSide) (data : List UInt8) :
    p.executeAll ((data.take ((p.side s).feed data).1).map (.push s)) =
      (List.replicate ((p.side s).feed data).1 (.ok .done),
        p.withSide ((p.side s).feed data).2 s) := by
  induction data generalizing p with
  | nil => simp [ByteFifo.feed, executeAll]
  | cons b rest ih =>
    rcases h : (p.side s).push b with e | g
    · simp [ByteFifo.feed, h, executeAll]
    · have hrest := ih (p.withSide g s)
      rw [side_withSide, withSide_withSide] at hrest
      simp only [ByteFifo.feed, h, List.take_succ_cons, List.map_cons, executeAll, execute, hrest,
        List.replicate_succ]

theorem loopback_cases (p : PortFifos n) :
    (∀ max, p.loopback max = (0, p)) ∨
      ∃ q : PortFifos n, ∀ max,
        p.loopback (max + 1) = ((q.loopback max).1 + 1, (q.loopback max).2) := by
  by_cases hf : p.rx.isFull = true
  · left
    intro max
    cases max <;> simp [loopback, hf]
  · rcases hp : p.tx.pop with e | ⟨b, tx⟩
    · left
      intro max
      cases max <;> simp [loopback, hf, hp]
    · rcases hq : p.rx.push b with e | rx
      · exact absurd (p.rx.isFull_iff.2 (Ring.push_eq_error_iff.1 hq).2) hf
      · right
        refine ⟨⟨tx, rx⟩, fun max => ?_⟩
        simp [loopback, hf, hp, hq]

theorem loopback_add (p : PortFifos n) (a b : Nat) :
    p.loopback (a + b) =
      ((p.loopback a).1 + ((p.loopback a).2.loopback b).1, ((p.loopback a).2.loopback b).2) := by
  induction a generalizing p with
  | zero => simp [loopback]
  | succ a ih =>
    rcases p.loopback_cases with hstuck | ⟨q, hmoves⟩
    · simp [hstuck]
    · rw [Nat.add_right_comm, hmoves, hmoves, ih q, Nat.add_right_comm]

/-- A cable stops at its limit, or because no byte is left, or because none fits. -/
theorem loopback_stops (p : PortFifos n) (max : Nat) :
    (p.loopback max).1 = max ∨ (p.loopback max).2.tx.toList = [] ∨
      (p.loopback max).2.rx.toList.length = n := by
  obtain ⟨htx, hrx⟩ := p.toList_loopback max
  have hcount := p.fst_loopback max
  have hle := p.rx.length_toList_le
  rw [htx, hrx, List.drop_eq_nil_iff, List.length_append, List.length_take]
  omega

/-- Feeding, taking and the cable move exactly as many bytes as were offered or asked for, are
there and fit: the first of what was offered, the oldest of what was there, in order. Feeding
does what so many single pushes do, taking leaves the rest of the buffer, the cable loses and
doubles nothing and stops for one of its three reasons, and two turns of it are one. -/
theorem bulk_moves_exact (p : PortFifos n) :
    (∀ (s : FifoSide) (data : List UInt8),
      let old := (p.side s).toList
      let k := min data.length (n - old.length)
      ∃ f : ByteFifo n, p.execute (.feed s data) = (.ok (.count k), p.withSide f s) ∧
        f.toList = old ++ data.take k ∧
        p.executeAll ((data.take k).map (.push s)) =
          (List.replicate k (.ok .done), p.withSide f s)) ∧
      (∀ (s : FifoSide) (buffer : List UInt8),
        let old := (p.side s).toList
        let k := min buffer.length old.length
        ∃ f : ByteFifo n, p.execute (.take s buffer) =
            (.ok (.filled k (old.take k ++ buffer.drop k)), p.withSide f s) ∧
          f.toList = old.drop k) ∧
      (∀ max : Nat,
        let k := min max (min p.tx.toList.length (n - p.rx.toList.length))
        ∃ q : PortFifos n, p.execute (.loopback max) = (.ok (.count k), q) ∧
          q.tx.toList = p.tx.toList.drop k ∧
          q.rx.toList = p.rx.toList ++ p.tx.toList.take k ∧
          q.rx.toList ++ q.tx.toList = p.rx.toList ++ p.tx.toList ∧
          (k = max ∨ q.tx.toList = [] ∨ q.rx.toList.length = n)) ∧
      ∀ a b : Nat, ∃ (i j : Nat) (q : PortFifos n),
        p.executeAll [.loopback a, .loopback b] = ([.ok (.count i), .ok (.count j)], q) ∧
        p.execute (.loopback (a + b)) = (.ok (.count (i + j)), q) := by
  refine ⟨fun s data => ?_, fun s buffer => ?_, fun max => ?_, fun a b => ?_⟩
  · intro old k
    have hk : ((p.side s).feed data).1 = k := (p.side s).fst_feed data
    refine ⟨((p.side s).feed data).2, ?_, ?_, ?_⟩
    · rw [← hk]
      rfl
    · rw [← hk]
      exact (p.side s).toList_feed data
    · rw [← hk]
      exact p.executeAll_push s data
  · intro old k
    have htake : ((p.side s).take buffer.length).1 = old.take k :=
      ((p.side s).fst_take buffer.length).trans List.take_eq_take_min
    have hcount : (old.take k).length = k := by
      rw [List.length_take]
      omega
    refine ⟨((p.side s).take buffer.length).2, ?_, ?_⟩
    · simp only [execute, htake, overwrite, hcount]
    · exact ((p.side s).toList_take buffer.length).trans List.drop_eq_drop_min
  · intro k
    obtain ⟨htx, hrx⟩ := p.toList_loopback max
    have hk : (p.loopback max).1 = k := p.fst_loopback max
    have hstops := p.loopback_stops max
    rw [hk] at htx hrx hstops
    refine ⟨(p.loopback max).2, ?_, htx, hrx, ?_, hstops⟩
    · rw [← hk]
      rfl
    · rw [htx, hrx, List.append_assoc, List.take_append_drop]
  · exact ⟨_, _, _, rfl, congrArg (fun r => (Except.ok (FifoReply.count r.1), r.2))
      (p.loopback_add a b)⟩

end PolledUart.PortFifos
