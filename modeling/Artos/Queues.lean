/-
# Conservation and order of queue items

The items that successful enqueues put into a queue come out of it in the same order:
what was sent is what was received followed by the contents of the ring (`RingInv`).
The four copies of the ring update in `queue.c` act by `RingEffect`, so that every
step keeps the equation by one of the two rules of a ring.
-/
import Artos.Handoff
import Artos.Ring

open Function

namespace Artos

variable {cfg : Config} {j : ℕ} {obs obs₀ : List Obs} {s s' s₀ : Sys} {q q' q₀ : Queue}

/-! ## Items in the history -/

/-- The item that an observation puts into the queue. -/
def Obs.sent (j : ℕ) : Obs → Option (List UInt8)
  | .enqueued h item true => if h = j then some item else none
  | _ => none

/-- The item that an observation takes out of the queue. -/
def Obs.received (j : ℕ) : Obs → Option (List UInt8)
  | .dequeued h (some item) => if h = j then some item else none
  | _ => none

/-- **The items of the successful enqueues**, in the order of their last sections. -/
def sent (j : ℕ) (obs : List Obs) : List (List UInt8) := obs.filterMap (Obs.sent j)

/-- **The items of the successful dequeues**, in the order of their last sections. -/
def received (j : ℕ) (obs : List Obs) : List (List UInt8) := obs.filterMap (Obs.received j)

theorem sent_append : sent j (obs₀ ++ obs) = sent j obs₀ ++ sent j obs :=
  List.filterMap_append

theorem received_append : received j (obs₀ ++ obs) = received j obs₀ ++ received j obs :=
  List.filterMap_append

/-- An observation passes no item unless it is a successful call on the queue. -/
def Obs.Silent (j : ℕ) (ob : Obs) : Prop := ob.sent j = none ∧ ob.received j = none

theorem silent_of_object {ob : Obs} (h : ob.object ≠ .queue j) : ob.Silent j := by
  cases ob with
  | enqueued h' item res =>
      have hne : h' ≠ j := fun he => h (by rw [he]; rfl)
      cases res <;> simp [Obs.Silent, Obs.sent, Obs.received, hne]
  | dequeued h' item =>
      have hne : h' ≠ j := fun he => h (by rw [he]; rfl)
      cases item <;> simp [Obs.Silent, Obs.sent, Obs.received, hne]
  | _ => exact ⟨rfl, rfl⟩

theorem silent_of_failed {ob : Obs} (h : FailedPass j ob) : ob.Silent j := by
  rcases h with ⟨item, rfl⟩ | rfl <;> exact ⟨rfl, rfl⟩

/-- Silent observations pass nothing. -/
theorem passes_silent (h : ∀ ob ∈ obs, ob.Silent j) : sent j obs = [] ∧ received j obs = [] :=
  ⟨List.filterMap_eq_nil_iff.mpr fun ob hob => (h ob hob).1,
    List.filterMap_eq_nil_iff.mpr fun ob hob => (h ob hob).2⟩

/-- What a step that leaves the ring as it is makes known passes nothing. -/
theorem passes_same (hobs : ∀ ob ∈ obs, ob.object ≠ .queue j ∨ FailedPass j ob ∨
    ∃ t l, ob = .blocked (some t) l) : sent j obs = [] ∧ received j obs = [] := by
  refine passes_silent fun ob hob => ?_
  rcases hobs ob hob with hne | hf | ⟨t, l, rfl⟩
  · exact silent_of_object hne
  · exact silent_of_failed hf
  · exact ⟨rfl, rfl⟩

/-- Neither does a wake-up. -/
theorem passes_handed {l : EventList} (hw : ∀ ob ∈ obs, ∃ w, ob = .handed l w) :
    sent j obs = [] ∧ received j obs = [] := by
  refine passes_silent fun ob hob => ?_
  obtain ⟨w, rfl⟩ := hw ob hob
  exact ⟨rfl, rfl⟩

/-- A wake-up fails no pass. -/
theorem no_failed_handed {l : EventList} (hw : ∀ ob ∈ obs, ∃ w, ob = .handed l w) :
    (∀ item, Obs.enqueued j item false ∉ obs) ∧ Obs.dequeued j none ∉ obs := by
  refine ⟨fun item hmem => ?_, fun hmem => ?_⟩
  · obtain ⟨w, hob⟩ := hw _ hmem
    simp at hob
  · obtain ⟨w, hob⟩ := hw _ hmem
    simp at hob

/-! ## The ring of a queue -/

/-- **The items now stored**, from the read index onward. -/
def Queue.items (cfg : Config) (q : Queue) : List (List UInt8) :=
  Ring.contents (q.itemAt cfg) q.capacity q.readIndex q.count

/-- No offset into the buffer of a well-formed queue overflows. -/
theorem QueueOk.offset_eq (h : QueueOk cfg q) {i : ℕ} (hi : i < q.capacity) :
    q.offset cfg i = q.itemSize * i := by
  refine Nat.mod_eq_of_lt (lt_of_le_of_lt ?_ h.bytes_lt)
  exact Nat.mul_le_mul_left _ hi.le

/-- The byte `b` of the slot `i` lies in the slot `w` only when the two are the same. -/
theorem slot_bounds {size i w b : ℕ} (hb : b < size) :
    (size * w ≤ size * i + b ∧ size * i + b < size * w + size) ↔ i = w := by
  constructor
  · rintro ⟨hlo, hhi⟩
    by_contra hne
    rcases lt_or_gt_of_ne hne with hlt | hgt
    · have hstep : size * (i + 1) ≤ size * w := Nat.mul_le_mul_left _ hlt
      rw [Nat.mul_succ] at hstep
      omega
    · have hstep : size * (w + 1) ≤ size * i := Nat.mul_le_mul_left _ hgt
      rw [Nat.mul_succ] at hstep
      omega
  · rintro rfl
    omega

/-- **An enqueue writes its slot and no other.** -/
theorem QueueOk.itemAt_put (h : QueueOk cfg q) (data : List UInt8) {i : ℕ}
    (hi : i < q.capacity) :
    (q.put cfg data).itemAt cfg i =
      if i = q.writeIndex then q.itemOf data else q.itemAt cfg i := by
  have hw := h.valid.2.2.2.2.2
  have hoff : (q.put cfg data).offset cfg i = q.itemSize * i := h.offset_eq hi
  have hslot : ∀ b ∈ List.range q.itemSize,
      (q.put cfg data).buffer ((q.put cfg data).offset cfg i + b) =
        if i = q.writeIndex then data.getD b 0 else q.buffer (q.itemSize * i + b) := by
    intro b hb
    have hiff := slot_bounds (i := i) (w := q.writeIndex) (List.mem_range.mp hb)
    rw [hoff]
    show (if _ ∧ _ then _ else _) = _
    rw [h.offset_eq hw]
    by_cases he : i = q.writeIndex
    · rw [if_pos (hiff.mpr he), if_pos he, he, Nat.add_sub_cancel_left]
    · rw [if_neg (fun hc => he (hiff.mp hc)), if_neg he]
  unfold Queue.itemAt Queue.itemOf
  show (List.range q.itemSize).map _ = _
  rw [List.map_congr_left hslot]
  split
  · rfl
  · rw [h.offset_eq hi]

/-- **The ring of a queue**: its contents continue what was received to what was sent,
and the write index lies behind them. -/
structure RingInv (cfg : Config) (j : ℕ) (obs : List Obs) (q : Queue) : Prop where
  items : sent j obs = received j obs ++ q.items cfg
  write : q.writeIndex = (q.readIndex + q.count) % q.capacity

/-- **Every effect on the ring keeps it.** -/
theorem RingEffect.ringInv (he : RingEffect cfg j q obs q') (hok : QueueOk cfg q)
    (h : RingInv cfg j obs₀ q) : RingInv cfg j (obs₀ ++ obs) q' := by
  obtain ⟨hcap, -, -, hcount, hread, hwrite⟩ := hok.valid
  cases he with
  | same hobs =>
      obtain ⟨hs, hr⟩ := passes_same hobs
      refine ⟨?_, h.write⟩
      rw [sent_append, received_append, hs, hr, List.append_nil, List.append_nil]
      exact h.items
  | @put data wobs hroom hw =>
      obtain ⟨hs, hr⟩ := passes_handed hw
      have hlt : q.count < q.capacity := by omega
      have hu : u32 (q.count + 1) = q.count + 1 :=
        Nat.mod_eq_of_lt (by have hcap' := hok.capacity_lt; omega)
      have hsame : ∀ i, i < q.capacity → i ≠ (q.readIndex + q.count) % q.capacity →
          (q.put cfg data).itemAt cfg i = q.itemAt cfg i := by
        intro i hi hne
        rw [hok.itemAt_put data hi, if_neg (h.write ▸ hne)]
      have hpush := Ring.contents_push hlt hsame
      have hitems : (q.put cfg data).items cfg = q.items cfg ++ [q.itemOf data] := by
        show Ring.contents _ q.capacity q.readIndex (u32 (q.count + 1)) = _
        rw [hu, hpush, ← h.write, hok.itemAt_put data hwrite, if_pos rfl]
        rfl
      constructor
      · have hone : sent j (Obs.enqueued j (q.itemOf data) true :: wobs) =
            q.itemOf data :: sent j wobs := by simp [sent, Obs.sent]
        have hzero : received j (Obs.enqueued j (q.itemOf data) true :: wobs) =
            received j wobs := rfl
        rw [sent_append, received_append, hone, hzero, hs, hr, hitems, h.items]
        simp
      · show q.bump q.writeIndex = (q.readIndex + u32 (q.count + 1)) % q.capacity
        rw [(hok.bump_lt hwrite).1, hu, h.write, Nat.mod_add_mod, Nat.add_assoc]
  | @take wobs hne hw =>
      obtain ⟨hs, hr⟩ := passes_handed hw
      obtain ⟨n, hn⟩ : ∃ n, q.count = n + 1 := Nat.exists_eq_succ_of_ne_zero hne
      have hitems : q.items cfg = q.itemAt cfg q.readIndex :: q.take.items cfg := by
        show Ring.contents _ q.capacity q.readIndex q.count = _
        rw [hn, Ring.contents_pop hread]
        show _ = _ :: Ring.contents _ q.capacity (q.bump q.readIndex) (q.count - 1)
        rw [(hok.bump_lt hread).1, hn, Nat.add_sub_cancel]
        rfl
      constructor
      · have hone : received j
            (Obs.dequeued j (some (q.itemAt cfg q.readIndex)) :: wobs) =
              q.itemAt cfg q.readIndex :: received j wobs := by simp [received, Obs.received]
        have hzero : sent j (Obs.dequeued j (some (q.itemAt cfg q.readIndex)) :: wobs) =
            sent j wobs := rfl
        rw [sent_append, received_append, hone, hzero, hs, hr, h.items, hitems]
        simp
      · show q.writeIndex = (q.bump q.readIndex + (q.count - 1)) % q.capacity
        rw [(hok.bump_lt hread).1, h.write, Nat.mod_add_mod, hn, Nat.add_sub_cancel]
        congr 1
        omega

/-- The capacity and the item size of a queue never change. -/
theorem RingEffect.shape (he : RingEffect cfg j q obs q') :
    q'.capacity = q.capacity ∧ q'.itemSize = q.itemSize := by
  cases he <;> exact ⟨rfl, rfl⟩

/-- Only a step that leaves the ring as it is lets a pass fail. -/
theorem RingEffect.of_failed (he : RingEffect cfg j q obs q')
    (hfail : (∃ item, Obs.enqueued j item false ∈ obs) ∨ Obs.dequeued j none ∈ obs) :
    q' = q ∧ sent j obs = [] ∧ received j obs = [] := by
  cases he with
  | same hobs => exact ⟨rfl, passes_same hobs⟩
  | put hroom hw =>
      obtain ⟨hput, hget⟩ := no_failed_handed (j := j) hw
      simp [hput, hget] at hfail
  | take hne hw =>
      obtain ⟨hput, hget⟩ := no_failed_handed (j := j) hw
      simp [hput, hget] at hfail

/-- An initialised queue is empty. -/
theorem Initial.ringInv (h₀ : Initial cfg s₀) (hq : s₀.kernel.queue j = some q₀) :
    RingInv cfg j [] q₀ := by
  obtain ⟨control, storage, itemSize, capacity, buffer, -, -, hinit⟩ := h₀.queue j q₀ hq
  unfold artosQueueInit at hinit
  split at hinit
  · simp at hinit
  split at hinit
  · simp at hinit
  rw [Option.some.injEq] at hinit
  subst hinit
  exact ⟨rfl, (Nat.zero_mod _).symm⟩

/-- **Every run keeps the ring of every queue.** -/
theorem Run.ringInv (h₀ : Initial cfg s₀) (hq : s₀.kernel.queue j = some q₀)
    {tr : List Label} (hr : Run cfg s₀ tr s) :
    ∃ q, s.kernel.queue j = some q ∧ q.capacity = q₀.capacity ∧ q.itemSize = q₀.itemSize ∧
      RingInv cfg j (observations tr) q := by
  refine run_history
    (P := fun obs s => ∃ q, s.kernel.queue j = some q ∧ q.capacity = q₀.capacity ∧
      q.itemSize = q₀.itemSize ∧ RingInv cfg j obs q)
    h₀ ⟨q₀, hq, rfl, rfl, h₀.ringInv hq⟩ (fun obs₀ s e obs s' hreach hP hs => ?_) hr
  obtain ⟨q, hq, hcap, hsize, hring⟩ := hP
  have hI := hreach.inv
  obtain ⟨q', hq', he⟩ := (hs.queueStep hI j).ring hq
  exact ⟨q', hq', he.shape.1.trans hcap, he.shape.2.trans hsize,
    he.ringInv (hI.queues j q hq) hring⟩

/-! ## Conservation -/

/-- **Queue conservation and order.**  After every run, for every queue: the items of the
successful enqueues, in the order of their last critical sections, are those of the
successful dequeues followed by the items now stored from the read index onward; the
write index is `(readIndex + count) % capacity` with `count ≤ capacity`; and a call that
returns false leaves the queue as it is. -/
theorem queue_conservation (h₀ : Initial cfg s₀) (hq₀ : s₀.kernel.queue j = some q₀)
    {tr : List Label} (hr : Run cfg s₀ tr s) :
    ∃ q, s.kernel.queue j = some q ∧ q.capacity = q₀.capacity ∧ q.itemSize = q₀.itemSize ∧
      sent j (observations tr) = received j (observations tr) ++ q.items cfg ∧
      q.writeIndex = (q.readIndex + q.count) % q.capacity ∧ q.count ≤ q.capacity ∧
      ∀ e obs s', Step cfg s (e, obs) s' →
        ((∃ item, Obs.enqueued j item false ∈ obs) ∨ Obs.dequeued j none ∈ obs) →
        s'.kernel.queue j = some q ∧ sent j obs = [] ∧ received j obs = [] := by
  obtain ⟨q, hq, hcap, hsize, hring⟩ := Run.ringInv h₀ hq₀ hr
  have hI : Inv cfg s := h₀.inv.run hr
  refine ⟨q, hq, hcap, hsize, hring.items, hring.write, (hI.queues j q hq).valid.2.2.2.1,
    fun e obs s' hs hfail => ?_⟩
  obtain ⟨q', hq', he⟩ := ((step_kind hI hs).queueStep hI j).ring hq
  obtain ⟨rfl, hsilent⟩ := he.of_failed hfail
  exact ⟨hq', hsilent⟩

/-- Three items pass a queue of two, the last of them round the end of the ring. -/
def wrappedQueue : List Label × Sys :=
  (Runs.runSteps (step smallConfig) smallBoot
    [createTask 1 0, .start, .call (.queueEnqueue 0 (some [7]) 0),
      .call (.queueEnqueue 0 (some [8]) 0), .call (.queueDequeue 0 true 0),
      .call (.queueEnqueue 0 (some [9]) 0)]).get (by decide +kernel)

theorem wrappedQueue_run : Run smallConfig smallBoot wrappedQueue.1 wrappedQueue.2 :=
  run_of_runSteps (Option.some_get _).symm

theorem queue_conservation_wrappedQueue :
    sent 0 (observations wrappedQueue.1) = [[7], [8], [9]] ∧
      received 0 (observations wrappedQueue.1) = [[7]] ∧
      ∃ q, wrappedQueue.2.kernel.queue 0 = some q ∧
        sent 0 (observations wrappedQueue.1) =
          received 0 (observations wrappedQueue.1) ++ q.items smallConfig := by
  refine ⟨by decide +kernel, by decide +kernel, ?_⟩
  have hinit : smallBoot.kernel.queue 0 = some ⟨0, 2, 0, 0, 1, 1, fun _ => 0⟩ := rfl
  obtain ⟨q, hq, -, -, hitems, -⟩ :=
    queue_conservation smallBoot_initial hinit wrappedQueue_run
  exact ⟨q, hq, hitems⟩

/-! ## Offsets into the buffer -/

/-- The bytes of the buffer that the item at an index occupies. -/
def Queue.slot (cfg : Config) (q : Queue) (i : ℕ) : Set ℕ :=
  {a | q.offset cfg i ≤ a ∧ a < q.offset cfg i + q.itemSize}

/-- A slot lies in the buffer. -/
theorem QueueOk.slot_subset (h : QueueOk cfg q) {i : ℕ} (hi : i < q.capacity) :
    q.slot cfg i ⊆ {a | a < q.itemSize * q.capacity} := by
  rintro a ⟨-, ha⟩
  rw [h.offset_eq hi] at ha
  have hstep : q.itemSize * (i + 1) ≤ q.itemSize * q.capacity := Nat.mul_le_mul_left _ hi
  rw [Nat.mul_succ] at hstep
  exact lt_of_lt_of_le ha hstep

/-- The slots of different indices are disjoint. -/
theorem QueueOk.slot_disjoint (h : QueueOk cfg q) {i k : ℕ} (hi : i < q.capacity)
    (hk : k < q.capacity) (hik : i ≠ k) : Disjoint (q.slot cfg i) (q.slot cfg k) := by
  refine Set.disjoint_left.mpr fun a ⟨hlo, hhi⟩ ⟨hlo', hhi'⟩ => hik ?_
  rw [h.offset_eq hi] at hlo hhi
  rw [h.offset_eq hk] at hlo' hhi'
  obtain ⟨b, rfl⟩ := Nat.exists_eq_add_of_le hlo
  exact (slot_bounds (by omega)).mp ⟨hlo', hhi'⟩

/-- The effect of a step writes at most the slot of the write index. -/
theorem RingEffect.buffer (he : RingEffect cfg j q obs q') {a : ℕ}
    (ha : a ∉ q.slot cfg q.writeIndex) : q'.buffer a = q.buffer a := by
  cases he with
  | same hobs => rfl
  | put hroom hw => exact if_neg ha
  | take hne hw => rfl

/-- What holds of an index that the next copy may use. -/
structure SoundIndex (cfg : Config) (q : Queue) (i : ℕ) : Prop where
  /-- The offset is computed without overflow. -/
  exact : q.itemSize * i < 2 ^ cfg.sizeBits ∧ q.offset cfg i = q.itemSize * i
  /-- The bytes copied lie in the buffer. -/
  inside : q.slot cfg i ⊆ {a | a < q.itemSize * q.capacity}
  /-- The increment of the index does not overflow. -/
  next : i + 1 < 2 ^ 32

theorem QueueOk.soundIndex (h : QueueOk cfg q) {i : ℕ} (hi : i < q.capacity) :
    SoundIndex cfg q i := by
  have hcap := h.capacity_lt
  refine ⟨⟨lt_of_le_of_lt (Nat.mul_le_mul_left _ hi.le) h.bytes_lt, h.offset_eq hi⟩,
    h.slot_subset hi, by omega⟩

/-- **The arithmetic of a queue stays in its buffer.**  In every reachable state of a queue the
offsets of the write index and the read index are computed without overflow, their slots lie in
the buffer, and the slots of different indices are disjoint.  Neither the increment of an index
nor that of the count overflows, and a step writes at most the slot of the write index. -/
theorem offsets_in_buffer (h : Reachable cfg s) (hq : s.kernel.queue j = some q) :
    SoundIndex cfg q q.writeIndex ∧ SoundIndex cfg q q.readIndex ∧
      (∀ i k, i < q.capacity → k < q.capacity → i ≠ k →
        Disjoint (q.slot cfg i) (q.slot cfg k)) ∧
      (q.count ≠ q.capacity → q.count + 1 < 2 ^ 32) ∧
      ∀ e obs s', Step cfg s (e, obs) s' → ∃ q', s'.kernel.queue j = some q' ∧
        ∀ a, a ∉ q.slot cfg q.writeIndex → q'.buffer a = q.buffer a := by
  have hok := h.inv.queues j q hq
  obtain ⟨-, -, -, hcount, hread, hwrite⟩ := hok.valid
  have hcap := hok.capacity_lt
  refine ⟨hok.soundIndex hwrite, hok.soundIndex hread, fun i k hi hk => hok.slot_disjoint hi hk,
    fun hroom => by omega, fun e obs s' hs => ?_⟩
  obtain ⟨q', hq', he⟩ := ((step_kind h.inv hs).queueStep h.inv j).ring hq
  exact ⟨q', hq', fun a ha => he.buffer ha⟩

/-- The ring has wrapped, and the next item goes to the second slot. -/
theorem offsets_in_buffer_wrappedQueue :
    ∃ q, wrappedQueue.2.kernel.queue 0 = some q ∧ q.writeIndex = 1 ∧
      SoundIndex smallConfig q q.writeIndex := by
  have hreach : Reachable smallConfig wrappedQueue.2 := ⟨_, _, smallBoot_initial, wrappedQueue_run⟩
  have hsome : (wrappedQueue.2.kernel.queue 0).isSome := by decide +kernel
  have hindex : ∀ q, wrappedQueue.2.kernel.queue 0 = some q → q.writeIndex = 1 := by
    have hmap : (wrappedQueue.2.kernel.queue 0).map Queue.writeIndex = some 1 := by decide +kernel
    intro q hq
    rw [hq] at hmap
    exact Option.some.inj hmap
  obtain ⟨q, hq⟩ := Option.isSome_iff_exists.mp hsome
  exact ⟨q, hq, hindex q hq, (offsets_in_buffer hreach hq).1⟩

end Artos
