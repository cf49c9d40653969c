/-
# A call that times out leaves no trace

A blocking call inserts its task into the wait list of an object, and the tick handler takes
it out again.  In between other tasks and objects go on.  As long as nothing else is done with
the object and its other waiters stay as they are, the wait lists without the task of the
call do not change (`Moves.list_kept`), and when the call returns the object is what it was
(`no_trace`).

The owner of a mutex may lock and unlock other mutexes while the call is pending, and then
its count of held mutexes changes (`held_count_changes`).
-/
import Artos.Ownership
import Artos.QueueOrder

open Function

namespace Artos

open Sched

variable {cfg : Config} {k k' : Sched} {a : Action} {acts : List Action} {t u o : Tid}
  {l : EventList} {x : Object} {obs : List Obs} {s s' s₁ s₂ s₃ : Sys} {e : Event} {j : ℕ}
  {y : Label} {tr : List Label} {c : Call} {r : Outcome}

/-! ## The wait list without the task -/

/-- An inserted item leaves a list as it was. -/
theorem link_erase {st : ListStore EventList Tid} {front back : List Tid}
    (hsplit : front ++ back = st.elems l) (ht : st.container t = none) :
    ((st.link l t front back hsplit ht).elems l).erase t = st.elems l := by
  have hnot : t ∉ front ++ back := hsplit ▸ ListStore.notMem_of_container l ht
  rw [List.mem_append, not_or] at hnot
  rw [ListStore.link_elems, update_self, List.erase_append_right _ hnot.1, List.erase_cons_head,
    hsplit]

/-- A sorted insertion of the task changes no list but for the task. -/
theorem insertReversedSorted_erase {st : ListStore EventList Tid} {l' : EventList}
    (ht : st.container t = none) :
    ((st.insertReversedSorted l' t).elems l).erase t = st.elems l := by
  rw [ListStore.insertReversedSorted_eq ht]
  by_cases hl : l = l'
  · subst hl
    exact link_erase _ ht
  · rw [ListStore.link_elems, update_of_ne hl]
    exact List.erase_of_not_mem (ListStore.notMem_of_container l ht)

/-- A sorted insertion into another list. -/
theorem insertReversedSorted_elems_of_ne {st : ListStore EventList Tid} {l' : EventList}
    (hl : l ≠ l') : (st.insertReversedSorted l' u).elems l = st.elems l := by
  unfold ListStore.insertReversedSorted
  split
  · rw [ListStore.link_elems, update_of_ne hl]
  · rfl

/-- Taking out the task, or one that is not in the list. -/
theorem remove_erase {st : ListStore EventList Tid} (hu : u = t ∨ st.container u ≠ some l) :
    ((st.remove u).elems l).erase t = (st.elems l).erase t := by
  rcases hu with rfl | hu
  · exact List.erase_of_not_mem ((st.nodup l).not_mem_erase)
  · rw [ListStore.remove_elems_of_ne hu]

/-- The action concerns no waiter of the list but the task `t`. -/
def Action.Leaves (k : Sched) (l : EventList) (t : Tid) : Action → Prop
  | .block u _ obj _ => u = t ∨ obj ≠ some l
  | .wake l' _ => l' ≠ l
  | .expire u => u = t ∨ k.eventL.container u ≠ some l
  | .setEff u _ => u = t ∨ k.eventL.container u ≠ some l
  | _ => True

/-- **An action that concerns no other waiter** leaves the list without the task as it was. -/
theorem Move.list_kept (hm : Move cfg k a k') (ha : a.Leaves k l t) :
    (k'.eventL.elems l).erase t = (k.eventL.elems l).erase t := by
  cases hm with
  | @block u w obj inf hc hw =>
      show ((k.enrolled u obj).elems l).erase t = _
      cases obj with
      | none => rfl
      | some l' =>
          have hnone : (k.eventL.setValue u (k.eff u)).container u = none := hc.event
          rcases ha with rfl | hne
          · rw [show (k.eventL.elems l).erase u = k.eventL.elems l from
              List.erase_of_not_mem (ListStore.notMem_of_container l hc.event)]
            exact insertReversedSorted_erase hnone
          · have hl : l ≠ l' := fun he => hne (by rw [he])
            rw [show k.enrolled u (some l') =
              (k.eventL.setValue u (k.eff u)).insertReversedSorted l' u from rfl,
              insertReversedSorted_elems_of_ne hl]
            rfl
  | @wake l' u rest hl =>
      have hu := ListStore.container_of_head hl
      refine remove_erase (Or.inr ?_)
      have hne : l' ≠ l := ha
      rw [hu]
      simpa using hne
  | expire hl hdue => exact remove_erase ha
  | advance hset => rw [advanced_eventL]
  | @setEff u p hbase hp hne =>
      rcases hu : k.eventL.container u with _ | l'
      · rw [withEff_eventL_of_none hu]
      · have hnone : ((k.eventL.remove u).setValue u p).container u = none := by simp
        rw [withEff_eventL_of_waiting hu]
        rcases ha with rfl | hne'
        · exact insertReversedSorted_erase hnone
        · have hl : l ≠ l' := by
            rintro rfl
            exact hne' hu
          rw [insertReversedSorted_elems_of_ne hl]
          exact remove_erase (Or.inr hne')
  | requeue hcur =>
      unfold requeued
      split <;> rfl
  | _ => rfl

/-- **A sequence of actions that concern no other waiter.** -/
theorem Moves.list_kept (hr : Ready cfg k) (hm : Moves cfg k acts k')
    (ha : ∀ a ∈ acts, a.Leaves k l t) :
    (k'.eventL.elems l).erase t = (k.eventL.elems l).erase t := by
  induction hm with
  | nil => rfl
  | @snoc acts k₁ k₂ a hm hmove ih =>
      have hinit : ∀ b ∈ acts, b.Leaves k l t := fun b hb => ha b (by simp [hb])
      have hlast := ha a (by simp)
      -- whoever waits in the list now waited there before
      have hback : ∀ u, u ≠ t → k₁.eventL.container u = some l →
          k.eventL.container u = some l := by
        intro u hut hu
        have hview : (k₁.view u).event = some l := hu
        rw [Moves.view hr.inv hr.delay hm] at hview
        rcases View.foldl_event hview with hv | ⟨w, inf, hmem⟩
        · exact hv
        · rcases hinit _ hmem with hut' | hne
          · exact absurd hut' hut
          · exact absurd rfl hne
      have hnow : ∀ u, u = t ∨ k.eventL.container u ≠ some l →
          u = t ∨ k₁.eventL.container u ≠ some l := by
        rintro u (hu | hu)
        · exact Or.inl hu
        · by_cases hut : u = t
          · exact Or.inl hut
          · exact Or.inr fun hc => hu (hback u hut hc)
      have hleaves : a.Leaves k₁ l t := by
        cases a with
        | expire u => exact hnow u hlast
        | setEff u p => exact hnow u hlast
        | _ => exact hlast
      rw [hmove.list_kept hleaves, ih hinit]

/-! ## A quiet call -/

/-- The task was unblocked by the tick handler. -/
def Expires (s : Sys) (u : Tid) (s' : Sys) : Prop :=
  s.sched.Blocked u ∧ ¬ s'.sched.Blocked u ∧ (s'.sched.tcb u).waitReason = .timedOut

/-- The task is about to test the object again in its waiting loop. -/
def Pc.LoopsOn (x : Object) : Pc → Prop
  | .resume w => w.onQueue = true ∧ w.list.object = x
  | _ => False

instance (x : Object) (p : Pc) : Decidable (p.LoopsOn x) :=
  p.casesOn (isFalse id) (fun _ => isFalse id)
    (fun w => inferInstanceAs (Decidable (w.onQueue = true ∧ w.list.object = x)))
    fun _ _ => isFalse id

/-- **An operation other than the pending call of `t` is applied to the object**: a call by
another task or a handler, or another pass of a waiting loop. -/
def Applies (s : Sys) (x : Object) (t : Tid) : Event → Prop
  | .call c => c.object = x
  | .isrCall c => c.object = x
  | .resume => ∃ u ∈ s.running, u ≠ t ∧ (s.pc u).LoopsOn x
  | _ => False

instance (s : Sys) (x : Object) (t : Tid) (e : Event) : Decidable (Applies s x t e) := by
  unfold Applies
  split <;> infer_instance

/-- None of the other waiters of the object expires or changes its priority. -/
def WaitersKept (x : Object) (t : Tid) (s s' : Sys) : Prop :=
  ∀ u l, u ≠ t → l.object = x → s.sched.eventL.container u = some l →
    ¬ Expires s u s' ∧ s'.sched.eff u = s.sched.eff u

/-- **A step in which nothing but the pending call of `t` touches the object.** -/
def Quietly (cfg : Config) (x : Object) (t : Tid) (s : Sys) (y : Label) (s' : Sys) : Prop :=
  Step cfg s y s' ∧ ¬ Applies s x t y.1 ∧ WaitersKept x t s s'

/-- The task is in a call on the object. -/
def Pc.CallOn (x : Object) : Pc → Prop
  | .request (some w) => w.list.object = x
  | .resume w => w.list.object = x
  | .semClear h _ => .sem h = x
  | _ => False

theorem Pc.CallOn.inCall {p : Pc} (h : p.CallOn x) : p.InCall := by
  cases p with
  | request w => cases w <;> simp_all [CallOn, InCall]
  | _ => simp_all [CallOn, InCall]

/-- The object is what it was. -/
structure SameObject (x : Object) (k k' : Kernel) : Prop where
  sem : ∀ j, x = .sem j → k'.sem j = k.sem j
  mutex : ∀ j, x = .mutex j → k'.mutex j = k.mutex j
  queue : ∀ j, x = .queue j → k'.queue j = k.queue j

theorem SameObject.refl (k : Kernel) : SameObject x k k :=
  ⟨fun _ _ => rfl, fun _ _ => rfl, fun _ _ => rfl⟩

theorem SameObject.trans {k₁ k₂ k₃ : Kernel} (h : SameObject x k₁ k₂)
    (h' : SameObject x k₂ k₃) : SameObject x k₁ k₃ :=
  ⟨fun j hj => (h'.sem j hj).trans (h.sem j hj), fun j hj => (h'.mutex j hj).trans (h.mutex j hj),
    fun j hj => (h'.queue j hj).trans (h.queue j hj)⟩

/-- The kernels have the same objects. -/
theorem SameObject.of_eq {k k' : Kernel} (hs : k'.sem = k.sem) (hm : k'.mutex = k.mutex)
    (hq : k'.queue = k.queue) : SameObject x k k' :=
  ⟨fun j _ => congrFun hs j, fun j _ => congrFun hm j, fun j _ => congrFun hq j⟩

/-- **A section of the object that serves nobody**: the object remains, nobody is woken, and
the call returns to its task or remains pending.  `hno` holds of the sections that fail or block, and of every resumption but those of a queue. -/
theorem TaskEvent.serves_none (h : Inv cfg s) (hI : InTask cfg s.sched u)
    (hsrc : TaskEvent cfg s u e x r) (hx : x ≠ .none)
    (hno : (e = .resume ∧ ∀ j, x ≠ .queue j) ∨
      ∀ ob ∈ r.obs, ob.Fails ∨ ∃ v l, ob = .blocked v l) :
    SameObject x s.kernel r.kernel ∧ (∀ l v, Obs.handed l v ∉ r.obs) ∧
      (r.pc = .user ∨ r.pc.InCall) := by
  cases x with
  | none => exact absurd rfl hx
  | sem j =>
      rcases hsrc.sem hI with ⟨n, rfl, -, hsec⟩ | ⟨rfl, -, acts, g, he, hpc⟩ | ⟨-, -, rfl⟩ |
        ⟨res, -, -, rfl⟩
      · have hfail := hno.resolve_left (by simp)
        cases hsec with
        | now he =>
            cases he with
            | refuse hzero => exact ⟨.refl _, by simp, by simp [Pc.InCall]⟩
            | take hsem hne => simp [Obs.Fails] at hfail
        | block hsem hzero hm => exact ⟨.of_eq rfl rfl rfl, by simp, by simp [Pc.InCall]⟩
      · have hfail := hno.resolve_left (by simp)
        revert he hfail
        generalize r.obs = obs'
        generalize r.kernel = k'
        intro he hfail
        cases he <;> simp [Obs.Fails] at hfail
      · exact ⟨.refl _, by simp, by simp [Pc.InCall]⟩
      · exact ⟨.of_eq rfl rfl rfl, by simp, by simp [Pc.InCall]⟩
  | mutex j =>
      rcases hsrc.mutex h hI with ⟨n, rfl, -, hsec⟩ | ⟨rfl, -, hsec⟩ | ⟨-, -, hsec⟩
      · have hfail := hno.resolve_left (by simp)
        cases hsec with
        | refuse => exact ⟨.refl _, by simp, by simp [Pc.InCall]⟩
        | acquire hm hown hheld => simp [Obs.Fails] at hfail
        | block hm hown hne hheld hb hi => exact ⟨.of_eq rfl rfl rfl, by simp, by simp [Pc.InCall]⟩
      · have hfail := hno.resolve_left (by simp)
        cases hsec <;> simp [Obs.Fails] at hfail
      · cases hsec with
        | granted hres => exact ⟨.of_eq rfl rfl rfl, by simp, by simp [Pc.InCall]⟩
        | timedOut hm hres hd => exact ⟨.of_eq rfl rfl rfl, by simp, by simp [Pc.InCall]⟩
  | queue j =>
      have hfail := hno.resolve_left fun hr => hr.2 j rfl
      obtain ⟨k, hIk, hk, hsec⟩ := hsrc.queue h hI
      have hsame : SameObject (.queue j) s.kernel k := by
        rcases hk with ⟨-, rfl⟩ | ⟨-, rfl⟩
        · exact .refl _
        · exact .of_eq rfl rfl rfl
      rcases hsec with ⟨data, w, inf, -, hsec⟩ | ⟨w, inf, -, hsec⟩
      · cases hsec with
        | refuse hwhy => exact ⟨hsame, by simp, Or.inl rfl⟩
        | block hq hfull hw hp hm => exact ⟨hsame.trans (.of_eq rfl rfl rfl), by simp, Or.inr trivial⟩
        | put he =>
            cases he
            simp [Obs.Fails] at hfail
      · cases hsec with
        | refuse hwhy => exact ⟨hsame, by simp, Or.inl rfl⟩
        | block hq hempty hw hp hm => exact ⟨hsame.trans (.of_eq rfl rfl rfl), by simp, Or.inr trivial⟩
        | get he =>
            cases he
            simp [Obs.Fails] at hfail

/-- A resumption on a semaphore or a mutex does not block. -/
theorem TaskEvent.resume_pc (h : Inv cfg s) (hI : InTask cfg s.sched u)
    (hsrc : TaskEvent cfg s u .resume x r) (hx : x ≠ .none) (hq : ∀ j, x ≠ .queue j) :
    ∀ q, r.pc ≠ .request q := by
  intro q
  cases x with
  | none => exact absurd rfl hx
  | sem j =>
      rcases hsrc.sem hI with ⟨n, he, -⟩ | ⟨he, -⟩ | ⟨-, -, rfl⟩ | ⟨res, -, -, rfl⟩
      · simp at he
      · simp at he
      · simp
      · simp
  | mutex j =>
      rcases hsrc.mutex h hI with ⟨n, he, -⟩ | ⟨he, -⟩ | ⟨-, -, hsec⟩
      · simp at he
      · simp at he
      · cases hsec <;> simp
  | queue j => exact absurd rfl (hq j)

/-- **A section that blocks at most the task, and wakes nobody from the object, concerns no other
of its waiters.** -/
theorem Section.leaves {x' : Object} {k' : Kernel} (h : Inv cfg s)
    (hsec : Section cfg x' u s.kernel k' acts obs) (hl : l.object = x)
    (hblock : u = t ∨ x' ≠ x ∨ ∀ v w obj inf, Action.block v w obj inf ∉ acts)
    (hhand : x' ≠ x ∨ ∀ l v, Obs.handed l v ∉ obs)
    (hkept : ∀ v, v ≠ t → s.sched.eventL.container v = some l →
      k'.sched.eff v = s.sched.eff v) : ∀ a ∈ acts, a.Leaves s.sched l t := by
  intro a ha
  have hin := hsec.acts_ok a ha
  cases a with
  | block v w obj inf =>
      rcases hblock with hut | hne | hno
      · exact Or.inl (hin.1.trans hut)
      · exact Or.inr fun hobj => hne ((hin.2 l hobj).symm.trans hl)
      · exact absurd ha (hno v w obj inf)
  | wake l' v =>
      rcases hhand with hne | hno
      · rintro rfl
        exact hne (Eq.trans (Eq.symm hin) hl)
      · exact absurd ((hsec.obs_ok.hands l' v).mpr ha) (hno l' v)
  | expire v => exact absurd hin id
  | setEff v p =>
      by_cases hvt : v = t
      · exact Or.inl hvt
      · refine Or.inr fun hc => ?_
        have hb := h.ready.inv.event_blocked v (by rw [hc]; simp)
        obtain ⟨l', hl', -⟩ := hb
        exact Moves.eff_ne h.ready.inv h.ready.delay hsec.moves hsec.one_setEff
          (by rw [hl']; simp) ha (hkept v hvt hc)
  | _ => trivial

/-- The tick handler expires a task for good. -/
theorem View.foldl_expire {v : View} (ts : List Tid) :
    (v.blocked = false → ((ts.map Action.expire).foldl (View.after u) v) = v) ∧
      (v.blocked = true → u ∈ ts →
        ((ts.map Action.expire).foldl (View.after u) v).blocked = false ∧
        ((ts.map Action.expire).foldl (View.after u) v).reason = .timedOut) := by
  induction ts generalizing v with
  | nil => simp
  | cons w ts ih =>
      rw [List.map_cons, List.foldl_cons]
      by_cases huw : u = w ∧ v.blocked = true
      · have hone : v.after u (.expire w) =
            { v with event := none, blocked := false, reason := .timedOut } := if_pos huw
        rw [hone, (ih (v := { v with event := none, blocked := false, reason := .timedOut })).1 rfl]
        exact ⟨fun hb => by simp [huw.2] at hb, fun _ _ => ⟨rfl, rfl⟩⟩
      · have hone : v.after u (.expire w) = v := if_neg huw
        rw [hone]
        refine ⟨(ih (v := v)).1, fun hb hu => (ih (v := v)).2 hb ?_⟩
        rcases List.mem_cons.mp hu with rfl | hu
        · exact absurd ⟨rfl, hb⟩ huw
        · exact hu

/-! ## Quiet steps -/

/-- What a quiet step keeps. -/
structure Kept (x : Object) (t : Tid) (s : Sys) (obs : List Obs) (s' : Sys) : Prop where
  object : SameObject x s.kernel s'.kernel
  lists : ∀ l, l.object = x →
    (s'.sched.eventL.elems l).erase t = (s.sched.eventL.elems l).erase t
  hands : ∀ l v, l.object = x → Obs.handed l v ∉ obs

/-- Actions that concern no waiter of the object. -/
theorem Kept.of_moves (h : Inv cfg s) (hm : Moves cfg s.sched acts s'.sched)
    (ha : ∀ l, l.object = x → ∀ a ∈ acts, a.Leaves s.sched l t)
    (hk : SameObject x s.kernel s'.kernel) (hobs : ∀ l v, l.object = x → Obs.handed l v ∉ obs) :
    Kept x t s obs s' :=
  ⟨hk, fun l hl => hm.list_kept h.ready (ha l hl), hobs⟩

/-- A section of another object. -/
theorem Section.other {x' : Object} {k' : Kernel} (h : Inv cfg s) (hne : x' ≠ x)
    (hsec : Section cfg x' u s.kernel k' acts obs) (hkern : s'.kernel = k')
    (hkept : WaitersKept x t s s') : Kept x t s obs s' := by
  subst hkern
  refine Kept.of_moves h hsec.moves (fun l hl => ?_) ?_ fun l v hl hob => ?_
  · exact hsec.leaves h hl (Or.inr (Or.inl hne)) (Or.inl hne)
      fun v hv hc => (hkept v l hv hl hc).2
  · exact ⟨fun j hj => hsec.sem j (hj ▸ hne.symm), fun j hj => hsec.mutex j (hj ▸ hne.symm),
      fun j hj => hsec.queue j (hj ▸ hne.symm)⟩
  · exact hne ((hsec.obs_ok.object _ hob).symm.trans hl)

/-- A wait that is over and was not served has timed out. -/
theorem timedOut_of_unserved {why : WaitReason} (hne : why ≠ .noReason) (hns : why ≠ .signaled) :
    why = .timedOut := by
  cases why with
  | noReason => exact absurd rfl hne
  | signaled => exact absurd rfl hns
  | timedOut => rfl

/-- The sections of the object in a quiet step fail, or go on after a wait that is over. -/
theorem Quietly.no_service {r : Outcome} (h : Inv cfg s) (hI : InTask cfg s.sched u)
    (hrun : s.running = some u) (hcall : (s.pc t).CallOn x)
    (hns : ¬ (s.pc t).Served (s.sched.tcb t).waitReason) (hno : ¬ Applies s x t e)
    (hsrc : TaskEvent cfg s u e x r) :
    (e = .resume ∧ ∀ j, x ≠ .queue j) ∨ (e = .resume ∧ u = t ∧ ∀ ob ∈ r.obs, ob.Fails) := by
  have hsrc' := hsrc
  cases hsrc with
  | call hpc => exact absurd rfl hno
  | finish hpc => exact Or.inl ⟨rfl, by simp⟩
  | @resume w hpc =>
      by_cases hq : w.onQueue = true
      · obtain ⟨j, hj⟩ := WaitPoint.onQueue_object hq
        have hut : u = t := by
          by_contra hut
          exact hno ⟨u, hrun, hut, by rw [hpc]; exact ⟨hq, rfl⟩⟩
        subst hut
        have hto : (s.sched.tcb u).waitReason = .timedOut := by
          rw [hpc] at hns
          exact timedOut_of_unserved (h.released hI hpc) hns
        exact Or.inr ⟨rfl, rfl, hsrc'.timedOut_fails hI hpc hj hto⟩
      · refine Or.inl ⟨rfl, fun j hj => hq ?_⟩
        cases w <;> simp_all [WaitPoint.list, WaitPoint.onQueue]

/-- **A quiet step keeps the object**, and its wait lists without the task of the call. -/
theorem Quietly.kept (h : Inv cfg s) (hx : x ≠ .none) (hcall : (s.pc t).CallOn x)
    (hns : ¬ (s.pc t).Served (s.sched.tcb t).waitReason)
    (hq : Quietly cfg x t s (e, obs) s') : Kept x t s obs s' := by
  obtain ⟨hs, hno, hkept⟩ := hq
  have hnil : ∀ l v, l.object = x → Obs.handed l v ∉ ([] : List Obs) := by simp
  cases step_kind h hs with
  | create hcur hm hacts =>
      refine Kept.of_moves h hm (fun l hl a ha => ?_) (.of_eq rfl rfl rfl) (by simp)
      rcases hacts with rfl | ⟨q, rfl⟩
      · simp at ha
      · obtain rfl := List.mem_singleton.mp ha
        trivial
  | start hcur hm hacts hnext =>
      refine Kept.of_moves h hm (fun l hl a ha => ?_) (.of_eq rfl rfl rfl) hnil
      rcases hacts with rfl | ⟨v, rfl⟩
      · simp at ha
      · obtain rfl := List.mem_singleton.mp ha
        trivial
  | @task e u x' r hrun hI hsrc hstep =>
      obtain ⟨acts, hsec, hblocks⟩ := hstep.sec
      by_cases hxx : x' = x
      · subst hxx
        have hserv := Quietly.no_service h hI hrun hcall hns hno hsrc
        obtain ⟨hobj, hhands, -⟩ := hsrc.serves_none h hI hx
          (hserv.imp id fun hr ob hob => Or.inl (hr.2.2 ob hob))
        refine Kept.of_moves h hsec.moves (fun l hl => ?_) hobj fun l v _ => hhands l v
        refine hsec.leaves h hl ?_ (Or.inr hhands) fun v hv hc => (hkept v l hv hl hc).2
        -- another task that goes on does not block again
        rcases hserv with ⟨rfl, hnq⟩ | ⟨-, hut, -⟩
        · refine Or.inr (Or.inr fun v w obj inf hmem => ?_)
          obtain rfl := (hsec.acts_ok _ hmem).1
          obtain ⟨q, hpc⟩ := hblocks ⟨w, obj, inf, hmem⟩
          exact hsrc.resume_pc h hI hx hnq q hpc
        · exact Or.inl hut
      · exact hsec.other h hxx rfl hkept
  | request hrun hpc => exact ⟨.refl _, fun l _ => rfl, hnil⟩
  | @tick ts k hm hset =>
      refine Kept.of_moves h hm (fun l hl a ha => ?_) (.of_eq rfl rfl rfl) hnil
      rcases List.mem_cons.mp ha with rfl | ha
      · trivial
      · obtain ⟨v, hv, rfl⟩ := List.mem_map.mp ha
        by_cases hvt : v = t
        · exact Or.inl hvt
        · refine Or.inr fun hc => (hkept v l hvt hl hc).1 ?_
          have hb : s.sched.Blocked v := h.ready.inv.event_blocked v (by rw [hc]; simp)
          have hview := Moves.view h.ready.inv h.ready.delay hm v
          rw [List.foldl_cons] at hview
          obtain ⟨hfree, hreason⟩ := (View.foldl_expire ts).2 (show
            ((s.sched.view v).after v .advance).blocked = true from inBlockedList_iff.mpr hb) hv
          rw [← hview] at hfree hreason
          refine ⟨hb, fun hb' => ?_, hreason⟩
          have hblk : k.inBlockedList v = true := inBlockedList_iff.mpr hb'
          exact Bool.false_ne_true (hfree.symm.trans hblk)
  | switch hcur hpending hm hacts =>
      refine Kept.of_moves h hm (fun l hl a ha => ?_) (.of_eq rfl rfl rfl) hnil
      rcases hacts with ⟨rfl, -⟩ | ⟨v, rfl, -⟩ <;>
        · simp only [List.mem_cons, List.not_mem_nil, or_false] at ha
          rcases ha with rfl | rfl | rfl <;> trivial
  | isrEnter => exact ⟨.refl _, fun l _ => rfl, hnil⟩
  | @isrCall c woken rest hh hstep =>
      obtain ⟨acts, hsec, -⟩ := hstep
      exact (hsec t).other h hno rfl hkept
  | isrReturn hh => exact ⟨.refl _, fun l _ => rfl, hnil⟩

/-! ## The pending call -/

/-- The call is on the list that its task waits on. -/
theorem Pc.CallOn.waitsOn {p : Pc} (h : p.CallOn x) :
    (∃ l, p.waitsOn = some l ∧ l.object = x) ∨ ∃ i res, p = .semClear i res ∧ .sem i = x := by
  cases p with
  | user => exact absurd h id
  | request w =>
      cases w with
      | none => exact absurd h id
      | some w => exact Or.inl ⟨w.list, rfl, h⟩
  | resume w => exact Or.inl ⟨w.list, rfl, h⟩
  | semClear i res => exact Or.inr ⟨i, res, rfl, h⟩

/-- A task in a call goes on with that call. -/
theorem TaskEvent.callOn {x' : Object} (hsrc : TaskEvent cfg s t e x' r)
    (hcall : (s.pc t).CallOn x) : x' = x := by
  cases hsrc with
  | call hpc =>
      rw [hpc] at hcall
      exact absurd hcall id
  | resume hpc =>
      rw [hpc] at hcall
      exact hcall
  | finish hpc =>
      rw [hpc] at hcall
      exact hcall

/-- **The call is pending and has not been served**, and the object is what it was. -/
structure QuietCall (cfg : Config) (x : Object) (t : Tid) (s₀ s : Sys) : Prop where
  inv : Inv cfg s
  call : (s.pc t).CallOn x
  unserved : ¬ (s.pc t).Served (s.sched.tcb t).waitReason
  object : SameObject x s₀.kernel s.kernel
  lists : ∀ l, l.object = x → (s.sched.eventL.elems l).erase t = s₀.sched.eventL.elems l

/-- A step of another task, or of no task, in which nobody is served. -/
theorem Spared.unserved (h : Inv cfg s) (hsp : Spared cfg s t obs s')
    (hcall : (s.pc t).CallOn x) (hns : ¬ (s.pc t).Served (s.sched.tcb t).waitReason)
    (hhands : ∀ l v, l.object = x → Obs.handed l v ∉ obs) :
    (s'.pc t).CallOn x ∧ ¬ (s'.pc t).Served (s'.sched.tcb t).waitReason := by
  obtain ⟨acts, hm, hspares, hhand⟩ := hsp.moves
  rw [hsp.pc]
  refine ⟨hcall, fun hserved => hns ?_⟩
  rcases hcall.waitsOn with ⟨l, hl, hlx⟩ | ⟨i, res, hpc, -⟩
  · have hreason : ∀ {why : WaitReason}, (s.pc t).Served why ↔ why = .signaled := by
      intro why
      cases hpc : s.pc t with
      | user => simp [hpc, Pc.waitsOn] at hl
      | semClear i res => simp [hpc, Pc.waitsOn] at hl
      | _ => rfl
    rw [hreason] at hserved ⊢
    rcases (Moves.signaled h.ready hm (h.tasks t) hl hspares).mp hserved with hold | hwake
    · exact hold
    · exact absurd ((hhand l).mpr hwake) (hhands l t hlx)
  · rw [hpc] at hserved ⊢
    exact hserved

/-- **A quiet step in which the call stays pending.** -/
theorem QuietCall.step {s₀ : Sys} (hc : QuietCall cfg x t s₀ s) (hx : x ≠ .none)
    (hq : Quietly cfg x t s (e, obs) s') (hin : (s'.pc t).InCall) :
    QuietCall cfg x t s₀ s' := by
  have hkept := hq.kept hc.inv hx hc.call hc.unserved
  have hboth : (s'.pc t).CallOn x ∧ ¬ (s'.pc t).Served (s'.sched.tcb t).waitReason := by
    cases (step_kind hc.inv hq.1).stepOf hc.inv t with
    | spared hsp => exact hsp.unserved hc.inv hc.call hc.unserved hkept.hands
    | @request w hrun hpc =>
        have hcall := hc.call
        have hns := hc.unserved
        rw [hpc] at hcall hns
        cases w with
        | none => exact absurd hcall id
        | some w =>
            have hpc' : update s.pc t (afterRequest (some w)) t = .resume w := by
              simp [afterRequest]
            show (update s.pc t (afterRequest (some w)) t).CallOn x ∧
              ¬ (update s.pc t (afterRequest (some w)) t).Served (s.sched.tcb t).waitReason
            rw [hpc']
            exact ⟨hcall, hns⟩
    | @own e x' r hrun hI hsrc hstep =>
        obtain rfl := hsrc.callOn hc.call
        have hpc' : (s.finish t r).pc t = r.pc := by simp [Sys.finish]
        rw [hpc'] at hin ⊢
        cases hstep.ends with
        | user hu => simp [hu, Pc.InCall] at hin
        | request hu => simp [hu, Pc.InCall] at hin
        | @block w hu hobs hreason =>
            rw [hu]
            exact ⟨(hstep.valid w (by rw [hu]; rfl)).2, hreason⟩
        | @read i res hxi hu =>
            subst hxi
            rw [hu]
            refine ⟨rfl, ?_⟩
            rcases hsrc.sem hI with ⟨n, -, hpc, -⟩ | ⟨-, hpc, -⟩ | ⟨-, hpc, hr⟩ | ⟨res', -, -, hr⟩
            · exact absurd hc.call (by rw [hpc]; exact id)
            · exact absurd hc.call (by rw [hpc]; exact id)
            · have hns := hc.unserved
              rw [hpc] at hns
              subst hr
              obtain ⟨-, rfl⟩ := Pc.semClear.inj hu
              simpa [Pc.Served] using hns
            · subst hr
              simp at hu
  exact ⟨hc.inv.step hq.1, hboth.1, hboth.2, hc.object.trans hkept.object,
    fun l hl => (hkept.lists l hl).trans (hc.lists l hl)⟩

/-- The steps of a call that stays pending while nothing else touches its object. -/
def QuietlyPending (cfg : Config) (x : Object) (t : Tid) (s : Sys) (y : Label) (s' : Sys) : Prop :=
  Quietly cfg x t s y s' ∧ (s'.pc t).InCall

/-- **A quiet run in which the call stays pending.** -/
theorem QuietCall.run {s₀ : Sys} (hc : QuietCall cfg x t s₀ s) (hx : x ≠ .none)
    (hr : Runs.Exec (QuietlyPending cfg x t) s tr s') : QuietCall cfg x t s₀ s' :=
  hr.invariant (fun _ ⟨_, _⟩ _ hcall hstep => hcall.step hx hstep.1 hstep.2) hc

/-- **What a call leaves behind** that has no effect on its object. -/
structure Untouched (x : Object) (t : Tid) (s s' : Sys) : Prop where
  object : SameObject x s.kernel s'.kernel
  lists : ∀ l, l.object = x → s'.sched.eventL.elems l = s.sched.eventL.elems l
  /-- The task is in no wait list, -/
  event : s'.sched.eventL.container t = none
  /-- in no delayed list and not suspended. -/
  state : s'.sched.stateL.container t = none

/-- A task that returns from its section is in no list. -/
theorem TaskStep.unlinked {r : Outcome} (hI : InTask cfg s.sched t)
    (hstep : TaskStep cfg x t s.kernel r) (hpc : r.pc = .user) :
    r.kernel.sched.eventL.container t = none ∧ r.kernel.sched.stateL.container t = none := by
  obtain ⟨acts, hsec, hblocks⟩ := hstep.sec
  have hown := hstep.own
  rw [hpc] at hown
  refine ⟨hown.1, Moves.unlinked hI.inv hI.delay hsec.moves ?_ ?_ ?_ hI.can.cur hI.can.state⟩
  · exact fun v hv => absurd (hsec.acts_ok _ hv) id
  · exact fun v hv => absurd (hsec.acts_ok _ hv) id
  · intro w obj inf hmem
    obtain ⟨q, hq⟩ := hblocks ⟨w, obj, inf, hmem⟩
    rw [hpc] at hq
    simp at hq

/-- A timed-out call on a queue returns false. -/
theorem TaskEvent.queue_fails (h : Inv cfg s) (hI : InTask cfg s.sched t)
    (hsrc : TaskEvent cfg s t e x r) {w : WaitPoint} (hpc : s.pc t = .resume w)
    (hw : w.list.object = .queue j) (hto : (s.sched.tcb t).waitReason = .timedOut) :
    ∃ ob ∈ r.obs, ob.Fails := by
  have hall := hsrc.timedOut_fails hI hpc hw hto
  have hx : x = .queue j := by
    cases hsrc with
    | resume hpc' => exact (by simpa [hpc] using hpc'.symm : _ = w) ▸ hw
    | _ => simp_all
  subst hx
  obtain ⟨k, -, -, hsec⟩ := hsrc.queue h hI
  rcases hsec with ⟨data, v, inf, -, hsec⟩ | ⟨v, inf, -, hsec⟩
  · cases hsec with
    | refuse hwhy => exact ⟨_, List.mem_singleton_self _, by simp [Obs.Fails]⟩
    | block hq hfull hv hp hm => exact absurd (hall _ (List.mem_singleton_self _)) id
    | put he =>
        cases he
        exact absurd (hall _ List.mem_cons_self) (by simp [Obs.Fails])
  · cases hsec with
    | refuse hwhy => exact ⟨_, List.mem_singleton_self _, by simp [Obs.Fails]⟩
    | block hq hfull hv hp hm => exact absurd (hall _ (List.mem_singleton_self _)) id
    | get he =>
        cases he
        exact absurd (hall _ List.mem_cons_self) (by simp [Obs.Fails])

/-- **The call that has not been served returns false.** -/
theorem TaskEvent.unserved_fails (h : Inv cfg s) (hI : InTask cfg s.sched t)
    (hsrc : TaskEvent cfg s t e x r) (hns : ¬ (s.pc t).Served (s.sched.tcb t).waitReason)
    (hin : (s.pc t).InCall) (hout : ¬ r.pc.InCall) : ∃ ob ∈ r.obs, ob.Fails := by
  have hsrc' := hsrc
  cases hsrc with
  | call hpc => simp [hpc, Pc.InCall] at hin
  | @finish i res hpc =>
      rw [hpc] at hns
      refine ⟨_, List.mem_singleton_self _, ?_⟩
      simpa [Pc.Served, Obs.Fails] using hns
  | @resume w hpc =>
      have hne := h.released hI hpc
      rw [hpc] at hns
      have hns' : (s.sched.tcb t).waitReason ≠ .signaled := hns
      cases w with
      | sem i => simp [resumeStep, artosSemaphoreTakeResume, Pc.InCall] at hout
      | mutex i =>
          rcases hsrc'.mutex h hI with ⟨n, he, -⟩ | ⟨he, -⟩ | ⟨-, -, hsec⟩
          · simp at he
          · simp at he
          · revert hsec
            generalize resumeStep cfg s.kernel (.mutex i) = r
            intro hsec
            cases hsec with
            | granted hres => exact absurd hres hns'
            | timedOut hm hres hd => exact ⟨_, List.mem_singleton_self _, by simp [Obs.Fails]⟩
      | enqueue i data w inf =>
          exact hsrc'.queue_fails h hI hpc rfl (timedOut_of_unserved hne hns')
      | dequeue i w inf =>
          exact hsrc'.queue_fails h hI hpc rfl (timedOut_of_unserved hne hns')

/-! ## The first section of the call -/

/-- The owner of a mutex does not wait for it. -/
theorem Reachable.owner_not_waiting (h : Reachable cfg s) (ho : Owns s j o) :
    s.sched.eventL.container o ≠ some (.mutexLock j) := by
  intro hc
  obtain ⟨s₀, tr₀, h₀, hr₀⟩ := h
  have hinv := h₀.inv.run hr₀
  have hwaits := (hinv.tasks o).waitsOn hc
  have hreason := (Run.custody h₀ hr₀ j o).waiter hwaits |>.mp ho
  rcases (hinv.tasks o).waits hwaits with ⟨-, -, hne⟩ | ⟨hnone, -⟩
  · exact hne hreason
  · have hc' : (s.sched.view o).event = some (.mutexLock j) := hc
    rw [hnone] at hc'
    simp at hc'

/-- **A call that blocks** concerns no other waiter of its object. -/
theorem TaskEvent.block_leaves (h : Reachable cfg s) (hI : InTask cfg s.sched t)
    (hsrc : TaskEvent cfg s t (.call c) x r) (hu : s.pc t = .user) (hx : x ≠ .none)
    {w : WaitPoint} (hpc : r.pc = .request (some w)) :
    ∃ acts, Moves cfg s.sched acts r.kernel.sched ∧
      ∀ l, l.object = x → ∀ a ∈ acts, a.Leaves s.sched l t := by
  have hone : ∀ {k' : Sched} {v obj inf}, Moves cfg s.sched [.block t v obj inf] k' →
      ∃ acts, Moves cfg s.sched acts k' ∧
        ∀ l, l.object = x → ∀ a ∈ acts, a.Leaves s.sched l t := by
    intro k' v obj inf hm
    refine ⟨_, hm, fun l hl a ha => ?_⟩
    obtain rfl := List.mem_singleton.mp ha
    exact Or.inl rfl
  cases x with
  | none => exact absurd rfl hx
  | sem i =>
      rcases hsrc.sem hI with ⟨n, -, -, hsec⟩ | ⟨-, -, acts, g, -, hpc'⟩ | ⟨he, -⟩ | ⟨res, he, -⟩
      · cases hsec with
        | now he => simp at hpc
        | block hsem hzero hm => exact hone hm
      · rcases afterWake_cases g with hg | hg <;> simp [hpc', hg] at hpc
      · simp at he
      · simp at he
  | mutex i =>
      rcases hsrc.mutex h.inv hI with ⟨n, -, -, hsec⟩ | ⟨-, -, hsec⟩ | ⟨he, -⟩
      · cases hsec with
        | refuse => simp at hpc
        | acquire hm hown hheld => simp at hpc
        | @block m o v inf k₁ k₂ acts hm hown hne hheld hb hi =>
            have hs₁ := (hI.inv.moves hI.delay hb).1
            obtain ⟨hbase, hlt, -⟩ := hs₁.rtosMutexRequiredPriority_spec o (.mutexLock i)
            refine ⟨_, hb.trans (hi.moves hbase hlt), fun l hl a ha => ?_⟩
            rcases List.mem_cons.mp ha with rfl | ha
            · exact Or.inl rfl
            · cases hi with
              | keep hle => simp at ha
              | raise hlt =>
                  obtain rfl := List.mem_singleton.mp ha
                  obtain rfl : l = .mutexLock i := by cases l <;> simp_all
                  exact Or.inr (h.owner_not_waiting ⟨m, hm, hown⟩)
      · cases hsec with
        | refuse hno => simp at hpc
        | @release m k₁ acts changed hm hown hr hl => cases changed <;> simp at hpc
        | @hand m k₁ acts changed v rest hm hown hr hl =>
            rcases ite_request (k₁.eff v > k₁.eff t) with hg | hg <;> simp [hg] at hpc
      · simp at he
  | queue i =>
      obtain ⟨k, -, hk, hsec⟩ := hsrc.queue h.inv hI
      have hks : k.sched = s.sched := by
        rcases hk with ⟨-, rfl⟩ | ⟨⟨v, hv⟩, -⟩
        · rfl
        · simp [hu] at hv
      rcases hsec with ⟨data, v, inf, -, hsec⟩ | ⟨v, inf, -, hsec⟩
      · cases hsec with
        | refuse hwhy => simp at hpc
        | block hq hfull hv hp hm => exact hone (hks ▸ hm)
        | @put k' acts obs g he => rcases afterWake_cases g with hg | hg <;> simp [hg] at hpc
      · cases hsec with
        | refuse hwhy => simp at hpc
        | block hq hempty hv hp hm => exact hone (hks ▸ hm)
        | @get k' acts obs g he => rcases afterWake_cases g with hg | hg <;> simp [hg] at hpc

/-- **The call blocks**, and the object is what it was. -/
theorem QuietCall.enter (h : Reachable cfg s) (hrun : s.running = some t)
    (hcall : Step cfg s (.call c, obs) s₁) (hin : (s₁.pc t).InCall) :
    c.object ≠ .none ∧ (∃ l, obs = [.blocked (some t) l]) ∧ QuietCall cfg c.object t s s₁ := by
  obtain ⟨hu, rfl, rfl⟩ := step_call hrun hcall
  have hI := h.inv.inTask hrun (by simp [hu])
  have hsrc : TaskEvent cfg s t (.call c) c.object (callStep cfg s.kernel c) := .call hu
  have hstep := callStep_step h.inv hI hu c
  have hpc' : (s.finish t (callStep cfg s.kernel c)).pc t = (callStep cfg s.kernel c).pc := by
    simp [Sys.finish]
  rw [hpc'] at hin
  cases hstep.ends with
  | user hpc => simp [hpc, Pc.InCall] at hin
  | request hpc => simp [hpc, Pc.InCall] at hin
  | @block w hpc hobs hreason =>
      have hw := (hstep.valid w (by rw [hpc]; rfl)).2
      have hx : c.object ≠ .none := by
        rw [← hw]
        cases w <;> simp [WaitPoint.list]
      obtain ⟨acts, hm, ha⟩ := hsrc.block_leaves h hI hu hx hpc
      obtain ⟨hobj, -, -⟩ := hsrc.serves_none h.inv hI hx
        (Or.inr fun ob hob => Or.inr ⟨_, _, by simpa [hobs] using hob⟩)
      refine ⟨hx, ⟨_, hobs⟩, h.inv.step hcall, ?_, ?_, hobj, fun l hl => ?_⟩
      · rw [hpc', hpc]
        exact hw
      · rw [hpc', hpc]
        exact hreason
      · exact (hm.list_kept h.inv.ready (ha l hl)).trans
          (List.erase_of_not_mem (ListStore.notMem_of_container l hI.can.event))
  | @read i res hx hpc =>
      rcases TaskEvent.sem hI (hx ▸ hsrc) with ⟨n, -, -, hsec⟩ | ⟨-, -, acts, g, -, hg⟩ |
        ⟨he, -⟩ | ⟨res, he, -⟩
      · revert hsec hpc
        generalize callStep cfg s.kernel c = r
        intro hpc hsec
        cases hsec <;> simp at hpc
      · rcases afterWake_cases g with hg' | hg' <;> simp [hpc, hg'] at hg
      · simp at he
      · simp at he

/-- **The task leaves the call.** -/
theorem QuietCall.leave {s₀ : Sys} (hc : QuietCall cfg x t s₀ s) (hx : x ≠ .none)
    (hq : Quietly cfg x t s (e, obs) s') (hout : ¬ (s'.pc t).InCall) :
    (∃ ob ∈ obs, ob.Fails) ∧ Untouched x t s₀ s' := by
  have hkept := hq.kept hc.inv hx hc.call hc.unserved
  have hin := hc.call.inCall
  cases (step_kind hc.inv hq.1).stepOf hc.inv t with
  | spared hsp => exact absurd (hsp.pc ▸ hin) hout
  | @request w hrun hpc =>
      refine absurd ?_ hout
      rw [hpc] at hin
      cases w with
      | none => exact absurd hin id
      | some w => simp [afterRequest, Pc.InCall]
  | @own e x' r hrun hI hsrc hstep =>
      obtain rfl := hsrc.callOn hc.call
      have hpc' : (s.finish t r).pc t = r.pc := by simp [Sys.finish]
      rw [hpc'] at hout
      have hserv := Quietly.no_service hc.inv hI hrun hc.call hc.unserved hq.2.1 hsrc
      obtain ⟨-, -, hpc⟩ := hsrc.serves_none hc.inv hI hx
        (hserv.imp id fun hr ob hob => Or.inl (hr.2.2 ob hob))
      have huser : r.pc = .user := hpc.resolve_right hout
      obtain ⟨hevent, hstate⟩ := hstep.unlinked hI huser
      refine ⟨hsrc.unserved_fails hc.inv hI hc.unserved hin hout,
        hc.object.trans hkept.object, fun l hl => ?_, hevent, hstate⟩
      have hnot : t ∉ r.kernel.sched.eventL.elems l := ListStore.notMem_of_container l hevent
      exact (List.erase_of_not_mem hnot).symm.trans ((hkept.lists l hl).trans (hc.lists l hl))

/-! ## The mutexes of the owner -/

/-- The task locks or unlocks a mutex, or is handed one. -/
def Obs.Transfers (o : Tid) : Obs → Prop
  | .locked _ u true => u = some o
  | .unlocked _ u true => u = some o
  | .handed (.mutexLock _) u => u = o
  | _ => False

instance (o : Tid) (ob : Obs) : Decidable (ob.Transfers o) := by
  unfold Obs.Transfers
  split <;> infer_instance

/-- A step without a transfer to or from the task. -/
theorem StepKind.owns_kept (h : Inv cfg s) (hs : StepKind cfg s e obs s')
    (hno : ∀ ob ∈ obs, ¬ ob.Transfers u) : Owns s' j u ↔ Owns s j u := by
  rcases hs.mutex_cases h j with ⟨hm, -⟩ | ⟨v, r, -, hI, -, rfl, rfl, hcases⟩
  · exact owns_congr hm
  · rcases hcases with ⟨n, -, -, hsec⟩ | ⟨-, -, hsec⟩ | ⟨-, -, hsec⟩
    · cases hsec with
      | refuse => exact Iff.rfl
      | @acquire m hm hown hheld =>
          have hvu : v ≠ u := by simpa [Obs.Transfers] using hno
          rw [owns_setMutex rfl]
          refine ⟨fun hv => absurd (Option.some.inj hv) hvu, fun ho => ?_⟩
          rw [ho.owner hm] at hown
          simp at hown
      | block hm hown hne hheld hb hi => exact Iff.rfl
    · cases hsec with
      | refuse hno => exact Iff.rfl
      | @release m k₁ acts changed hm hown hr hl =>
          have hvu : v ≠ u := by simpa [Obs.Transfers] using hno
          rw [owns_setMutex rfl]
          exact ⟨fun hv => by simp at hv, fun ho => absurd (Option.some.inj (hown.symm.trans (ho.owner hm))) hvu⟩
      | @hand m k₁ acts changed w rest hm hown hr hl =>
          have hvu : w ≠ u ∧ v ≠ u := by simpa [Obs.Transfers] using hno
          rw [owns_setMutex rfl]
          refine ⟨fun hw => absurd (Option.some.inj hw) hvu.1, fun ho => absurd ?_ hvu.2⟩
          exact Option.some.inj (hown.symm.trans (ho.owner hm))
    · cases hsec <;> exact Iff.rfl

/-- **The count of held mutexes** changes only when the task locks, unlocks or is handed a mutex. -/
theorem Run.held_kept (h : Inv cfg s) (hr : Run cfg s tr s')
    (hno : ∀ ob ∈ observations tr, ¬ ob.Transfers u) :
    (s'.sched.tcb u).mutexesHeld = (s.sched.tcb u).mutexesHeld := by
  have howns : (∀ ob ∈ observations tr, ¬ ob.Transfers u) → Inv cfg s' ∧
      ∀ i, Owns s' i u ↔ Owns s i u := by
    refine hr.trace_invariant (I := fun tr s' => (∀ ob ∈ observations tr, ¬ ob.Transfers u) →
      Inv cfg s' ∧ ∀ i, Owns s' i u ↔ Owns s i u) (fun tr s₁ y s₂ ih hs hno => ?_)
      fun _ => ⟨h, fun i => Iff.rfl⟩
    rw [observations_snoc] at hno
    obtain ⟨hI, hold⟩ := ih fun ob hob => hno ob (List.mem_append_left _ hob)
    obtain ⟨e, obs⟩ := y
    refine ⟨hI.step hs, fun i => ?_⟩
    exact ((step_kind hI hs).owns_kept hI fun ob hob =>
      hno ob (List.mem_append_right _ hob)).trans (hold i)
  obtain ⟨hI, hsame⟩ := howns hno
  have hset : OwnedBy s'.kernel u = OwnedBy s.kernel u := Set.ext hsame
  have hcount := hI.mutexes.count u
  rw [hset, h.mutexes.count u] at hcount
  exact_mod_cast hcount.symm

/-! ## No trace -/

/-- A call that fails at once changes nothing. -/
theorem Step.call_fails (h : Inv cfg s) (hrun : s.running = some t)
    (hcall : Step cfg s (.call c, obs) s₁) (hfail : ∃ ob ∈ obs, ob.Fails) :
    s₁.kernel = s.kernel := by
  obtain ⟨hu, rfl, rfl⟩ := step_call hrun hcall
  have hI := h.inTask hrun (by simp [hu])
  have hsrc : TaskEvent cfg s t (.call c) c.object (callStep cfg s.kernel c) := .call hu
  obtain ⟨acts, hsec, -⟩ := (callStep_step h hI hu c).sec
  show (callStep cfg s.kernel c).kernel = s.kernel
  revert hsrc hsec hfail
  generalize callStep cfg s.kernel c = r, c.object = x
  intro hfail hsrc hsec
  cases x with
  | none =>
      obtain ⟨ob, hob, hfails⟩ := hfail
      have hx := hsec.obs_ok.object ob hob
      cases ob <;> simp [Obs.Fails, Obs.object] at hfails hx
  | sem i =>
      rcases hsrc.sem hI with ⟨n, -, -, hs⟩ | ⟨-, -, acts', g, he, -⟩ | ⟨he, -⟩ | ⟨res, he, -⟩
      · cases hs with
        | now he =>
            cases he with
            | refuse hzero => rfl
            | take hsem hne => simp [Obs.Fails] at hfail
        | block hsem hzero hm => simp [Obs.Fails] at hfail
      · revert he hfail
        generalize r.obs = obs', r.kernel = k'
        intro hfail he
        cases he <;> simp [Obs.Fails] at hfail
      · simp at he
      · simp at he
  | mutex i =>
      rcases hsrc.mutex h hI with ⟨n, -, -, hs⟩ | ⟨-, -, hs⟩ | ⟨he, -⟩
      · cases hs with
        | refuse => rfl
        | acquire hm hown hheld => simp [Obs.Fails] at hfail
        | block hm hown hne hheld hb hi => simp [Obs.Fails] at hfail
      · cases hs <;> simp [Obs.Fails] at hfail
      · simp at he
  | queue i =>
      obtain ⟨k, -, hk, hs⟩ := hsrc.queue h hI
      have hk' : k = s.kernel := by
        rcases hk with ⟨-, rfl⟩ | ⟨⟨v, hv⟩, -⟩
        · rfl
        · simp [hu] at hv
      subst hk'
      rcases hs with ⟨data, v, inf, -, hs⟩ | ⟨v, inf, -, hs⟩
      · cases hs with
        | refuse hwhy => rfl
        | block hq hfull hv hp hm => simp [Obs.Fails] at hfail
        | put he =>
            cases he with
            | put hq hroom hw =>
                obtain ⟨ob, hob, hfails⟩ := hfail
                rcases List.mem_cons.mp hob with rfl | hob
                · simp [Obs.Fails] at hfails
                · obtain ⟨v, rfl⟩ := hw.obs_handed ob hob
                  exact absurd hfails id
      · cases hs with
        | refuse hwhy => rfl
        | block hq hempty hv hp hm => simp [Obs.Fails] at hfail
        | get he =>
            cases he with
            | get hq hne hw =>
                obtain ⟨ob, hob, hfails⟩ := hfail
                rcases List.mem_cons.mp hob with rfl | hob
                · simp [Obs.Fails] at hfails
                · obtain ⟨v, rfl⟩ := hw.obs_handed ob hob
                  exact absurd hfails id

/-- **A call that times out leaves no trace.**  Let the running task `t` make a call.  If the call
returns false at once, it changes nothing.  If it blocks, and while it is pending no other
operation is applied to its object and none of the other waiters of the object expires or changes
its priority, then it returns false; the object and its wait lists are what they were before the
call, and the task is in no list.  If the object is a mutex, the count of held mutexes of its
owner is what it was, unless the owner has locked, unlocked or been handed a mutex. -/
theorem no_trace (h : Reachable cfg s) (hrun : s.running = some t)
    (hcall : Step cfg s (.call c, obs) s₁) :
    ((∃ ob ∈ obs, ob.Fails) → s₁.kernel = s.kernel ∧ Untouched c.object t s s₁) ∧
      ((s₁.pc t).InCall → ∀ tr s₂ e obs' s₃,
        Runs.Exec (QuietlyPending cfg c.object t) s₁ tr s₂ →
        Quietly cfg c.object t s₂ (e, obs') s₃ → ¬ (s₃.pc t).InCall →
        (∃ ob ∈ obs', ob.Fails) ∧ Untouched c.object t s s₃ ∧
          ∀ i o, c.object = .mutex i → Owns s i o →
            (∀ ob ∈ observations tr ++ obs', ¬ ob.Transfers o) →
            (s₃.sched.tcb o).mutexesHeld = (s.sched.tcb o).mutexesHeld) := by
  refine ⟨fun hfail => ?_, fun hin tr s₂ e obs' s₃ hr hlast hout => ?_⟩
  · have hsame := Step.call_fails h.inv hrun hcall hfail
    obtain ⟨hu, -, -⟩ := step_call hrun hcall
    have hI := h.inv.inTask hrun (by simp [hu])
    refine ⟨hsame, by rw [hsame]; exact .refl _, fun l _ => ?_, ?_, ?_⟩
    · rw [Sys.sched, hsame]
    · rw [Sys.sched, hsame]
      exact hI.can.event
    · rw [Sys.sched, hsame]
      exact hI.can.state
  · obtain ⟨hx, hobs, henter⟩ := QuietCall.enter h hrun hcall hin
    obtain ⟨hfail, huntouched⟩ := (henter.run hx hr).leave hx hlast hout
    refine ⟨hfail, huntouched, fun i o hobj ho hno => ?_⟩
    have hrun' : Run cfg s ([(Event.call c, obs)] ++ tr ++ [(e, obs')]) s₃ :=
      ((Runs.Exec.single hcall).trans (hr.mono fun _ _ _ hz => hz.1.1)).snoc hlast.1
    refine Run.held_kept h.inv hrun' fun ob hob => ?_
    rw [observations_snoc, observations, List.flatMap_append, List.mem_append,
      List.mem_append] at hob
    rcases hob with (hob | hob) | hob
    · obtain ⟨l, rfl⟩ := hobs
      simp only [List.flatMap_singleton, List.mem_singleton] at hob
      subst hob
      exact id
    · exact hno ob (List.mem_append_left _ hob)
    · exact hno ob (List.mem_append_right _ hob)

/-! ## A call in isolation -/

/-- The wait lists of an object. -/
def Object.waitLists : Object → List EventList
  | .none => []
  | .sem i => [.semWait i]
  | .mutex i => [.mutexLock i]
  | .queue i => [.queueRead i, .queueWrite i]

/-- The task has the wait lists of the object for itself. -/
def Alone (x : Object) (t : Tid) (s : Sys) : Prop :=
  ∀ l ∈ x.waitLists, ∀ u ∈ s.sched.eventL.elems l, u = t

instance (x : Object) (t : Tid) (s : Sys) : Decidable (Alone x t s) :=
  inferInstanceAs (Decidable (∀ l ∈ x.waitLists, ∀ u ∈ s.sched.eventL.elems l, u = t))

/-- Without other waiters, a step is quiet unless it is an operation on the object. -/
theorem Alone.quietly (ha : Alone x t s) (hs : Step cfg s (e, obs) s') (hno : ¬ Applies s x t e) :
    Quietly cfg x t s (e, obs) s' := by
  refine ⟨hs, hno, fun u l hut hl hc => ?_⟩
  have hmem : l ∈ x.waitLists := by cases l <;> simp [← hl, Object.waitLists]
  exact absurd (ha l hmem u ((s.sched.eventL.mem_elems l u).mpr hc)) hut

/-- A step of a pending call that is alone at its object. -/
def aloneStep (cfg : Config) (x : Object) (t : Tid) (s : Sys) (e : Event) :
    Option (Sys × List Obs) :=
  (step cfg s e).filter fun r => decide ((¬ Applies s x t e ∧ Alone x t s) ∧ (r.1.pc t).InCall)

theorem quietlyPending_of_runSteps {es : List Event} {r : List Label × Sys}
    (h : Runs.runSteps (aloneStep cfg x t) s es = some r) :
    Runs.Exec (QuietlyPending cfg x t) s r.1 r.2 :=
  (Runs.exec_of_runSteps_guard (step cfg) (fun s e s' =>
    (¬ Applies s x t e ∧ Alone x t s) ∧ (s'.pc t).InCall) h).mono
    fun _ ⟨_, _⟩ _ hz => ⟨hz.2.1.2.quietly hz.1 hz.2.1.1, hz.2.2⟩

/-- The owner of a mutex has yielded to another task, -/
def contestedMutex : List Label × Sys :=
  (Runs.runSteps (step smallConfig) smallBoot
    [createTask 1 0, createTask 2 0, .start, .call (.mutexLock 0 0), .call .yield, .resume,
      switchFrom 1]).get (by decide +kernel)

theorem contestedMutex_reachable : Reachable smallConfig contestedMutex.2 :=
  Reachable.of_runSteps smallBoot_initial (Option.some_get _).symm

/-- which waits for the mutex for one tick. -/
def briefLock : Sys × List Obs :=
  (step smallConfig contestedMutex.2 (.call (.mutexLock 0 1))).get (by decide +kernel)

/-- In the meantime the owner does nothing with mutexes, -/
def idleOwner : List Label × Sys :=
  (Runs.runSteps (aloneStep smallConfig (.mutex 0) (.user 1)) briefLock.1
    [.resume, switchFrom 2, .tick, switchFrom 1]).get (by decide +kernel)

/-- or locks another one. -/
def busyOwner : List Label × Sys :=
  (Runs.runSteps (aloneStep smallConfig (.mutex 0) (.user 1)) briefLock.1
    [.resume, switchFrom 2, .call (.mutexLock 1 0), .tick, switchFrom 1]).get (by decide +kernel)

/-- The call returns, -/
def idleReturn : Sys × List Obs := (step smallConfig idleOwner.2 .resume).get (by decide +kernel)

/-- in either case. -/
def busyReturn : Sys × List Obs := (step smallConfig busyOwner.2 .resume).get (by decide +kernel)

theorem no_trace_idleOwner :
    idleReturn.2 = [.locked 0 (some (.user 1)) false] ∧
      Untouched (.mutex 0) (.user 1) contestedMutex.2 idleReturn.1 ∧
      (idleReturn.1.sched.tcb (.user 0)).mutexesHeld =
        (contestedMutex.2.sched.tcb (.user 0)).mutexesHeld := by
  have hcall : Step smallConfig contestedMutex.2 (.call (.mutexLock 0 1), briefLock.2)
      briefLock.1 := step_of_isSome _
  have hrun : Runs.Exec (QuietlyPending smallConfig (.mutex 0) (.user 1)) briefLock.1
      idleOwner.1 idleOwner.2 := quietlyPending_of_runSteps (Option.some_get _).symm
  have halone : Alone (.mutex 0) (.user 1) idleOwner.2 := by decide +kernel
  have hlast : Quietly smallConfig (.mutex 0) (.user 1) idleOwner.2 (.resume, idleReturn.2)
      idleReturn.1 := halone.quietly (step_of_isSome _) (by decide +kernel)
  obtain ⟨-, huntouched, hheld⟩ := (no_trace contestedMutex_reachable (by decide +kernel) hcall).2
    (by decide +kernel) _ _ _ _ _ hrun hlast (by decide +kernel)
  refine ⟨by decide +kernel, huntouched, hheld 0 (.user 0) rfl ⟨_, rfl, ?_⟩ (by decide +kernel)⟩
  decide +kernel

/-- **The owner of the mutex holds as many mutexes after the call as before.** -/
def KeepsHeldCount (cfg : Config) : Prop :=
  ∀ s t c obs s₁ tr s₂ e obs' s₃ i o, Reachable cfg s → s.running = some t →
    Step cfg s (.call c, obs) s₁ → (s₁.pc t).InCall →
    Runs.Exec (QuietlyPending cfg c.object t) s₁ tr s₂ →
    Quietly cfg c.object t s₂ (e, obs') s₃ → ¬ (s₃.pc t).InCall → (∃ ob ∈ obs', ob.Fails) →
    c.object = .mutex i → Owns s i o →
    (s₃.sched.tcb o).mutexesHeld = (s.sched.tcb o).mutexesHeld

/-- **An owner that locks another mutex meanwhile** holds one more. -/
theorem held_count_changes : ¬ KeepsHeldCount smallConfig := by
  intro hkeeps
  have hcall : Step smallConfig contestedMutex.2 (.call (.mutexLock 0 1), briefLock.2)
      briefLock.1 := step_of_isSome _
  have hrun : Runs.Exec (QuietlyPending smallConfig (.mutex 0) (.user 1)) briefLock.1
      busyOwner.1 busyOwner.2 := quietlyPending_of_runSteps (Option.some_get _).symm
  have halone : Alone (.mutex 0) (.user 1) busyOwner.2 := by decide +kernel
  have hlast : Quietly smallConfig (.mutex 0) (.user 1) busyOwner.2 (.resume, busyReturn.2)
      busyReturn.1 := halone.quietly (step_of_isSome _) (by decide +kernel)
  have hheld := hkeeps _ _ _ _ _ _ _ _ _ _ 0 (.user 0) contestedMutex_reachable
    (by decide +kernel) hcall (by decide +kernel) hrun hlast (by decide +kernel)
    ⟨.locked 0 (some (.user 1)) false, by decide +kernel, rfl⟩ rfl ⟨_, rfl, by decide +kernel⟩
  have hone : (contestedMutex.2.sched.tcb (.user 0)).mutexesHeld = 1 := by decide +kernel
  have htwo : (busyReturn.1.sched.tcb (.user 0)).mutexesHeld = 2 := by decide +kernel
  omega

end Artos
