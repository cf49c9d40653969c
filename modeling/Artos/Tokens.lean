/-
# Tokens of a semaphore

Every token that was ever signaled is in one of three places: stored in the count,
taken by a call that returned true, or in flight, handed to a waiter whose take has
not returned yet (`inFlight`, a fact about the history).  `Flight` ties the tokens in
flight to the points of the tasks, `TokenInv` is the balance, and every step on the
semaphore keeps both.
-/
import Artos.Handoff

open Function

namespace Artos

open Sched

variable {cfg : Config} {t u : Tid} {j : ℕ} {obs obs₀ : List Obs} {s s' s₀ : Sys}
  {e : Event}

/-! ## Tokens in the history -/

/-- The observation is the return of a take of the semaphore by the task. -/
def isTaken (j : ℕ) (t : Tid) : Obs → Bool
  | .taken h o _ => h = j ∧ o = some t
  | _ => false

/-- A token was handed to the task, and its take has not returned since. -/
def inFlight (j : ℕ) (t : Tid) (obs : List Obs) : Bool :=
  History.flag (fun ob => ob = .handed (.semWait j) t) (isTaken j t) obs

/-- The takes of the semaphore that returned true. -/
def takes (j : ℕ) (obs : List Obs) : ℕ :=
  obs.countP fun ob => match ob with
    | .taken h _ res => h = j ∧ res = true
    | _ => false

/-- The signals of the semaphore that returned true. -/
def signals (j : ℕ) (obs : List Obs) : ℕ := obs.count (.signaled j true)

/-- The tasks with a token in flight. -/
def Fliers (j : ℕ) (obs : List Obs) : Set Tid := {t | inFlight j t obs = true}

theorem inFlight_snoc (ob : Obs) : inFlight j t (obs₀ ++ [ob]) =
    if ob = .handed (.semWait j) t then true
    else if isTaken j t ob then false else inFlight j t obs₀ := by
  simp [inFlight, History.flag_snoc, History.flagStep]

/-- Only takes of the semaphore by the task are its returns. -/
theorem isTaken_eq_true {ob : Obs} (h : isTaken j t ob = true) :
    ob.object = .sem j ∧ ob.actor = some t := by
  cases ob with
  | taken h' o res => simpa [isTaken] using h
  | _ => simp [isTaken] at h

/-- Observations about other objects say nothing about tokens. -/
theorem tokens_append (obs₀ : List Obs) (hobs : ∀ ob ∈ obs, ob.object ≠ .sem j) :
    (∀ t, inFlight j t (obs₀ ++ obs) = inFlight j t obs₀) ∧
      takes j (obs₀ ++ obs) = takes j obs₀ ∧ signals j (obs₀ ++ obs) = signals j obs₀ := by
  refine ⟨fun t => History.flag_append_of_silent fun ob hob => ⟨?_, ?_⟩, ?_, ?_⟩
  · rw [decide_eq_false_iff_not]
    rintro rfl
    exact hobs _ hob rfl
  · rw [Bool.eq_false_iff]
    exact fun ht => hobs _ hob (isTaken_eq_true ht).1
  · have hzero : takes j obs = 0 := by
      refine List.countP_eq_zero.mpr fun ob hob => ?_
      cases ob with
      | taken h o res =>
          have hh : h ≠ j := by
            rintro rfl
            exact hobs _ hob rfl
          simp [hh]
      | _ => simp
    unfold takes at hzero ⊢
    rw [List.countP_append, hzero, Nat.add_zero]
  · have hzero : signals j obs = 0 := List.count_eq_zero.mpr fun hmem => hobs _ hmem rfl
    unfold signals at hzero ⊢
    rw [List.count_append, hzero, Nat.add_zero]

/-- Observations about calls of other tasks put a token in flight exactly by handing it
over. -/
theorem inFlight_append (hobs : ∀ ob ∈ obs, ob.actor ≠ some t) :
    inFlight j t (obs₀ ++ obs) = true ↔
      inFlight j t obs₀ = true ∨ Obs.handed (.semWait j) t ∈ obs := by
  unfold inFlight
  rw [History.flag_append_of_not_down]
  · simp
  · intro ob hob
    rw [Bool.eq_false_iff]
    exact fun ht => hobs ob hob (isTaken_eq_true ht).2

/-! ## The steps of a semaphore -/

/-- **What a step does with the semaphore `j`.** -/
inductive SemStep (cfg : Config) (s : Sys) (j : ℕ) : Event → List Obs → Sys → Prop
  | other {e : Event} {obs : List Obs} {s' : Sys}
      (hsem : s'.kernel.sem j = s.kernel.sem j) (hobs : ∀ ob ∈ obs, ob.object ≠ .sem j)
      (hlist : ∀ u, s'.sched.eventL.container u = some (.semWait j) →
        s.sched.eventL.container u = some (.semWait j)) : SemStep cfg s j e obs s'
  | take {t : Tid} {n : UInt32} {o : Outcome} (hpc : s.pc t = .user)
      (hsec : TakeSection cfg s.kernel j t o) :
      SemStep cfg s j (.call (.semaphoreTake j n)) o.obs (s.finish t o)
  | takeIsr {k : Kernel} {obs : List Obs} {hs : List Bool}
      (he : TakeEffect s.kernel j none k obs) :
      SemStep cfg s j (.isrCall (.semaphoreTake j)) obs
        { s with kernel := k, handlers := hs }
  | signal {t : Tid} {k : Kernel} {acts : List Action} {obs : List Obs} {g : Bool}
      (hpc : s.pc t = .user) (he : SignalEffect s.kernel j k acts obs g) :
      SemStep cfg s j (.call (.semaphoreSignal j)) obs (s.finish t ⟨k, afterWake g, obs⟩)
  | signalIsr {k : Kernel} {acts : List Action} {obs : List Obs} {g flagged woken : Bool}
      {rest : List Bool} (hh : s.handlers = woken :: rest)
      (he : SignalEffect s.kernel j k acts obs g) :
      SemStep cfg s j (.isrCall (.semaphoreSignal j flagged)) obs
        { s with kernel := k, handlers := (woken || (flagged && g)) :: rest }
  | read {t : Tid} (hpc : s.pc t = .resume (.sem j)) :
      SemStep cfg s j .resume []
        (s.finish t ⟨s.kernel, .semClear j ((s.sched.tcb t).waitReason = .signaled), []⟩)
  | finish {t : Tid} {res : Bool} (hpc : s.pc t = .semClear j res) :
      SemStep cfg s j .resume [.taken j (some t) res]
        (s.finish t
          ⟨{ s.kernel with sched := s.sched.cleared t }, .user, [.taken j (some t) res]⟩)

/-- **Every step is a step of the semaphore.** -/
theorem StepKind.semStep (h : Inv cfg s) (hs : StepKind cfg s e obs s') (j : ℕ) :
    SemStep cfg s j e obs s' := by
  cases hs with
  | create hcur hm hacts =>
      refine .other rfl (by simp) fun u hu => Moves.event_of_no_block h.ready hm ?_ hu
      rcases hacts with rfl | ⟨q, rfl⟩ <;> simp
  | start hcur hm hacts hnext =>
      refine .other rfl (by simp) fun u hu => Moves.event_of_no_block h.ready hm ?_ hu
      rcases hacts with rfl | ⟨t, rfl⟩ <;> simp
  | @task e t x o hrun hI hsrc hstep =>
      by_cases hx : x = .sem j
      · subst hx
        rcases hsrc.sem hI with ⟨n, rfl, hpc, hsec⟩ | ⟨rfl, hpc, acts, g, he, hw⟩ |
          ⟨rfl, hpc, rfl⟩ | ⟨res, rfl, hpc, rfl⟩
        · exact .take hpc hsec
        · obtain ⟨k, pc, obs⟩ := o
          dsimp only at hw
          subst hw
          exact .signal hpc he
        · exact .read hpc
        · exact .finish hpc
      · obtain ⟨acts, hsec, -⟩ := hstep.sec
        refine .other (hsec.sem j (Ne.symm hx))
          (fun ob hob he => hx ((hsec.obs_ok.object ob hob).symm.trans he)) fun u hu => ?_
        exact Moves.event_of_no_block h.ready hsec.moves (hsec.no_block (Ne.symm hx)) hu
  | request hrun hpc => exact .other rfl (by simp) fun u hu => hu
  | tick hm hset =>
      exact .other rfl (by simp) fun u hu => Moves.event_of_no_block h.ready hm (by simp) hu
  | switch hcur hpending hm hacts =>
      refine .other rfl (by simp) fun u hu => Moves.event_of_no_block h.ready hm ?_ hu
      rcases hacts with ⟨rfl, -⟩ | ⟨t, rfl, -⟩ <;> simp
  | isrEnter => exact .other rfl (by simp) fun u hu => hu
  | @isrCall c woken rest hh hstep =>
      by_cases hx : c.object = .sem j
      · cases c with
        | semaphoreTake j' =>
            have hj : j' = j := by simpa [IsrCall.object] using hx
            subst hj
            exact .takeIsr (artosSemaphoreTakeIsr_effect j' woken).1
        | semaphoreSignal j' flagged =>
            have hj : j' = j := by simpa [IsrCall.object] using hx
            subst hj
            obtain ⟨acts, g, he, hw⟩ := artosSemaphoreSignalIsr_effect h.ready j' flagged woken
            simp only [isrCallStep, hw]
            exact .signalIsr hh he
        | _ => simp [IsrCall.object] at hx
      · obtain ⟨acts, hsec, -⟩ := hstep
        refine .other ((hsec .idle).sem j (Ne.symm hx))
          (fun ob hob he => hx (((hsec .idle).obs_ok.object ob hob).symm.trans he))
          fun u hu => ?_
        exact Moves.event_of_no_block h.ready (hsec .idle).moves
          ((hsec .idle).no_block (Ne.symm hx)) hu
  | isrReturn hh => exact .other rfl (by simp) fun u hu => hu

/-! ## Tokens in flight and the points of the tasks -/

/-- The task is inside a take of the semaphore, blocked or with its outcome. -/
def Pc.InTake (j : ℕ) (p : Pc) : Prop := p.waitsOn = some (.semWait j) ∨ ∃ res, p = .semClear j res

/-- **A token is in flight to the task exactly when its take has been granted one and
has not returned.** -/
def Flight (j : ℕ) (obs : List Obs) (s : Sys) (u : Tid) : Prop :=
  inFlight j u obs = true ↔ (s.pc u).InTake j ∧ granted (.semWait j) u obs = true

/-- No token is in flight to a task outside the takes of the semaphore. -/
theorem Flight.not_inFlight (hf : Flight j obs s u) (hp : ¬ (s.pc u).InTake j) :
    inFlight j u obs = false := by
  rw [← Bool.not_eq_true]
  exact fun h => hp (hf.mp h).1

/-- The task is outside the takes before and after, and no token is put in flight. -/
theorem flight_outside (hf : Flight j obs₀ s u) (hp : ¬ (s.pc u).InTake j)
    (hp' : ¬ (s'.pc u).InTake j) (hin : inFlight j u (obs₀ ++ obs) = true →
      inFlight j u obs₀ = true) : Flight j (obs₀ ++ obs) s' u := by
  refine iff_of_false (fun h => ?_) fun h => hp' h.1
  have hold := hin h
  rw [hf.not_inFlight hp] at hold
  simp at hold

/-- A task at the point of a section of another object is in no take of this one. -/
theorem TaskEvent.not_inTake {x : Object} {o : Outcome} (hsrc : TaskEvent cfg s u e x o)
    (hx : x ≠ .sem j) : ¬ (s.pc u).InTake j := by
  rintro (hw | ⟨res, hr⟩)
  · cases hsrc with
    | call hpc => simp [hpc, Pc.waitsOn] at hw
    | @resume w hpc =>
        have hl : w.list = .semWait j := by simpa [hpc, Pc.waitsOn] using hw
        exact hx (by rw [hl]; rfl)
    | finish hpc => simp [hpc, Pc.waitsOn] at hw
  · cases hsrc with
    | call hpc => simp [hpc] at hr
    | resume hpc => simp [hpc] at hr
    | @finish j' res' hpc =>
        rw [hpc, Pc.semClear.injEq] at hr
        exact hx (by rw [hr.1])

theorem TaskStep.not_inTake {x : Object} {o : Outcome} {k : Kernel}
    (hstep : TaskStep cfg x u k o) (hx : x ≠ .sem j) : ¬ o.pc.InTake j := by
  rintro (hw | ⟨res, hr⟩)
  · rw [Pc.waitsOn_eq] at hw
    obtain ⟨w, hw, hl⟩ := Option.map_eq_some_iff.mp hw
    have hwx := (hstep.valid w hw).2
    rw [hl] at hwx
    exact hx hwx.symm
  · cases hstep.ends with
    | user hpc => simp [hpc] at hr
    | request hpc => simp [hpc] at hr
    | block hpc hobs hreason => simp [hpc] at hr
    | @read j' res' hx' hpc =>
        rw [hpc, Pc.semClear.injEq] at hr
        exact hx (by rw [hx', hr.1])

theorem afterRequest_inTake (r : Option WaitPoint) :
    (afterRequest r).InTake j ↔ (Pc.request r).InTake j := by
  unfold Pc.InTake
  rw [afterRequest_waitsOn]
  cases r <;> simp [afterRequest]

theorem not_inTake_user : ¬ Pc.user.InTake j := by
  simp [Pc.InTake, Pc.waitsOn]

theorem not_inTake_afterWake (g : Bool) : ¬ (afterWake g).InTake j := by
  rcases afterWake_cases g with hg | hg <;> simp [hg, Pc.InTake, Pc.waitsOn]

/-- **Every step keeps the tokens in flight true to the points.** -/
theorem StepKind.flight (h : Inv cfg s) (hs : StepKind cfg s e obs s')
    (hf : ∀ u, Flight j obs₀ s u) (u : Tid) : Flight j (obs₀ ++ obs) s' u := by
  have hfu := hf u
  cases hs.stepOf h u with
  | spared hsp =>
      obtain ⟨acts, hm, ha, hh⟩ := hsp.moves
      have hin : Obs.handed (.semWait j) u ∈ obs → (s.pc u).InTake j := fun hmem =>
        Or.inl (Moves.woken_waitsOn h.ready hm (h.tasks u) ha ((hh _).mp hmem))
      unfold Flight at hfu ⊢
      rw [hsp.pc, inFlight_append hsp.actor, granted_append hsp.actor, hfu]
      tauto
  | @request r hrun hpc =>
      unfold Flight at hfu ⊢
      rw [List.append_nil, hfu, hpc]
      simp only [update_self, afterRequest_inTake]
  | @own e x o hrun hI hsrc hstep =>
      have hpc' : (s.finish u o).pc u = o.pc := update_self _ _ _
      by_cases hx : x = .sem j
      · subst hx
        rcases hsrc.sem hI with ⟨n, -, hpc, hsec⟩ | ⟨-, hpc, acts, g, he, hw⟩ |
          ⟨-, hpc, rfl⟩ | ⟨res, -, hpc, rfl⟩
        · have hout : ¬ (s.pc u).InTake j := by
            rw [hpc]
            exact not_inTake_user
          cases hsec with
          | now he =>
              refine flight_outside hfu hout (by rw [hpc']; exact not_inTake_user) ?_
              cases he <;> simp [inFlight_snoc, isTaken]
          | block hsem hzero hm =>
              unfold Flight
              rw [granted_blocked, inFlight_snoc, hfu.not_inFlight hout]
              simp [isTaken]
        · have hout : ¬ (s.pc u).InTake j := by
            rw [hpc]
            exact not_inTake_user
          refine flight_outside hfu hout (by rw [hpc', hw]; exact not_inTake_afterWake g) ?_
          obtain ⟨k, pc, obs⟩ := o
          intro hin
          rw [inFlight_append] at hin
          · refine hin.resolve_right fun hmem => ?_
            cases he with
            | @hand sem w rest hsem hzero hl =>
                -- the caller is not in the list, so it does not hand a token to itself
                have huw : u = w := by simpa using hmem
                exact hI.can.ne_waiting (ListStore.container_of_head hl) huw.symm
            | _ => simp at hmem
          · cases he <;> simp
        · unfold Flight at hfu ⊢
          rw [List.append_nil, hfu, hpc', hpc]
          simp [Pc.InTake, Pc.waitsOn, WaitPoint.list]
        · have hout : ¬ ((s.finish u
              ⟨{ s.kernel with sched := s.sched.cleared u }, .user, [.taken j (some u) res]⟩).pc
                u).InTake j := by
            rw [hpc']
            exact not_inTake_user
          refine iff_of_false ?_ fun hc => hout hc.1
          simp [inFlight_snoc, isTaken]
      · obtain ⟨acts, hsec, -⟩ := hstep.sec
        have hobj : ∀ ob ∈ o.obs, ob.object ≠ .sem j :=
          fun ob hob he => hx ((hsec.obs_ok.object ob hob).symm.trans he)
        refine flight_outside hfu (hsrc.not_inTake hx) ?_ fun hin => ?_
        · rw [hpc']
          exact hstep.not_inTake hx
        · rwa [(tokens_append _ hobj).1] at hin

/-! ## The balance -/

/-- Only tasks that were handed something have a token in flight. -/
theorem fliers_finite (j : ℕ) (obs : List Obs) : (Fliers j obs).Finite := by
  have hsub : Fliers j obs ⊆ {t | Obs.handed (.semWait j) t ∈ obs} := by
    intro t ht
    obtain ⟨ob, hmem, hob⟩ := History.exists_of_flag ht
    rw [decide_eq_true_iff] at hob
    rw [hob] at hmem
    exact hmem
  refine Set.Finite.subset ?_ hsub
  refine Set.Finite.preimage (f := Obs.handed (.semWait j)) ?_ obs.finite_toSet
  intro a _ b _ hab
  simpa using hab

/-- An observation that neither hands over nor returns leaves the tokens in flight. -/
theorem fliers_snoc_same {ob : Obs} (hh : ∀ t, ob ≠ .handed (.semWait j) t)
    (ht : ∀ t, isTaken j t ob = false) : Fliers j (obs₀ ++ [ob]) = Fliers j obs₀ := by
  ext t
  simp [Fliers, inFlight_snoc, hh t, ht t]

/-- A hand-over puts a token in flight. -/
theorem fliers_handed (w : Tid) :
    Fliers j (obs₀ ++ [Obs.handed (.semWait j) w]) = insert w (Fliers j obs₀) := by
  ext t
  by_cases htw : w = t
  · simp [Fliers, inFlight_snoc, htw]
  · simp [Fliers, inFlight_snoc, htw, Ne.symm htw, isTaken]

/-- The return of a take ends the flight of its token. -/
theorem fliers_taken (t : Tid) (res : Bool) :
    Fliers j (obs₀ ++ [Obs.taken j (some t) res]) = Fliers j obs₀ \ {t} := by
  ext u
  by_cases htu : t = u
  · simp [Fliers, inFlight_snoc, htu, isTaken]
  · simp [Fliers, inFlight_snoc, htu, Ne.symm htu, isTaken]

/-- **The books of a semaphore** that was initialised as `sem₀`. -/
structure TokenInv (sem₀ : Semaphore) (j : ℕ) (obs : List Obs) (k : Kernel)
    (sem : Semaphore) : Prop where
  state : k.sem j = some sem
  max_eq : sem.max = sem₀.max
  max_pos : 0 < sem.max
  max_lt : sem.max < 4294967296
  le : sem.count ≤ sem.max
  /-- A task waits only while there is no token. -/
  empty : 0 < sem.count → ∀ u, k.sched.eventL.container u ≠ some (.semWait j)
  balance : sem.count + takes j obs + (Fliers j obs).ncard = sem₀.count + signals j obs

variable {sem₀ sem : Semaphore}

/-- The books when the semaphore, its list and its tokens stay as they are. -/
theorem TokenInv.keep {k k' : Kernel} (h : TokenInv sem₀ j obs₀ k sem)
    (hsem : k'.sem j = k.sem j)
    (hlist : ∀ u, k'.sched.eventL.container u = some (.semWait j) →
      k.sched.eventL.container u = some (.semWait j))
    (htakes : takes j (obs₀ ++ obs) = takes j obs₀)
    (hsignals : signals j (obs₀ ++ obs) = signals j obs₀)
    (hfliers : Fliers j (obs₀ ++ obs) = Fliers j obs₀) :
    TokenInv sem₀ j (obs₀ ++ obs) k' sem :=
  ⟨hsem.trans h.state, h.max_eq, h.max_pos, h.max_lt, h.le,
    fun hpos u hu => h.empty hpos u (hlist u hu), by
      rw [htakes, hsignals, hfliers]
      exact h.balance⟩

/-- **A take at once keeps the books**: it moves a stored token to the taken ones. -/
theorem TakeEffect.tokens {k k' : Kernel} {o : Option Tid} (he : TakeEffect k j o k' obs)
    (h : TokenInv sem₀ j obs₀ k sem) (ho : ∀ t, o = some t → inFlight j t obs₀ = false) :
    ∃ sem', TokenInv sem₀ j (obs₀ ++ obs) k' sem' := by
  have hfliers : ∀ res, Fliers j (obs₀ ++ [Obs.taken j o res]) = Fliers j obs₀ := by
    intro res
    cases o with
    | none => exact fliers_snoc_same (by simp) (by simp [isTaken])
    | some t =>
        rw [fliers_taken]
        exact Set.sdiff_singleton_eq_self (by simpa [Fliers] using ho t rfl)
  cases he with
  | refuse hzero =>
      exact ⟨sem, h.keep rfl (fun u hu => hu) (by simp [takes]) (by simp [signals]) (hfliers _)⟩
  | @take sem' hsem hne =>
      have heq : sem' = sem := Option.some.inj (hsem.symm.trans h.state)
      subst heq
      refine ⟨{ sem' with count := sem'.count - 1 }, by simp [Kernel.setSem], h.max_eq,
        h.max_pos, h.max_lt, ?_, fun hpos u => h.empty (by omega) u, ?_⟩
      · have hle := h.le
        show sem'.count - 1 ≤ sem'.max
        omega
      · have hbal := h.balance
        have htakes : takes j (obs₀ ++ [Obs.taken j o true]) = takes j obs₀ + 1 := by simp [takes]
        have hsignals : signals j (obs₀ ++ [Obs.taken j o true]) = signals j obs₀ := by
          simp [signals]
        rw [hfliers, htakes, hsignals]
        show sem'.count - 1 + _ + _ = _
        omega

/-- **A signal keeps the books**: a new token is stored, or put in flight. -/
theorem SignalEffect.tokens {k k' : Kernel} {acts : List Action} {g : Bool}
    (he : SignalEffect k j k' acts obs g) (h : TokenInv sem₀ j obs₀ k sem)
    (hwait : ∀ u, k.sched.eventL.container u = some (.semWait j) →
      inFlight j u obs₀ = false) :
    ∃ sem', TokenInv sem₀ j (obs₀ ++ obs) k' sem' := by
  have htakes : ∀ res, takes j (obs₀ ++ [Obs.signaled j res]) = takes j obs₀ := by
    intro res
    simp [takes]
  have hfliers : ∀ res, Fliers j (obs₀ ++ [Obs.signaled j res]) = Fliers j obs₀ := fun res =>
    fliers_snoc_same (by simp) (by simp [isTaken])
  have hone : signals j (obs₀ ++ [Obs.signaled j true]) = signals j obs₀ + 1 := by simp [signals]
  have hbal := h.balance
  have hle := h.le
  have hlt := h.max_lt
  cases he with
  | invalid hsem =>
      rw [h.state] at hsem
      simp at hsem
  | full hsem hne hfull =>
      exact ⟨sem, h.keep rfl (fun u hu => hu) (htakes _) (by simp [signals]) (hfliers _)⟩
  | @store sem' hsem hroom hempty =>
      have heq : sem' = sem := Option.some.inj (hsem.symm.trans h.state)
      subst heq
      have hpos := h.max_pos
      have hroom' : sem'.count < sem'.max := by
        by_cases hz : sem'.count = 0
        · omega
        · have hne := hroom hz
          omega
      have hu : u32 (sem'.count + 1) = sem'.count + 1 := Nat.mod_eq_of_lt (by omega)
      rw [hu]
      refine ⟨{ sem' with count := sem'.count + 1 }, by simp [Kernel.setSem], h.max_eq, hpos, hlt,
        hroom', fun _ u hu => ?_, ?_⟩
      · -- the list was empty: of no token by the test, of some by the books
        by_cases hz : sem'.count = 0
        · have hmem := (ListStore.mem_elems _ _ u).mpr hu
          rw [show (k.setSem j _).sched = k.sched from rfl, hempty hz] at hmem
          simp at hmem
        · exact h.empty (by omega) u hu
      · rw [htakes, hfliers, hone]
        show sem'.count + 1 + _ + _ = _
        omega
  | @hand sem' w rest hsem hzero hl =>
      have heq : sem' = sem := Option.some.inj (hsem.symm.trans h.state)
      subst heq
      have hw := hwait w (ListStore.container_of_head hl)
      have hsplit : obs₀ ++ [Obs.signaled j true, Obs.handed (.semWait j) w] =
          (obs₀ ++ [Obs.signaled j true]) ++ [Obs.handed (.semWait j) w] := by simp
      have hflying : Fliers j (obs₀ ++ [Obs.signaled j true, Obs.handed (.semWait j) w]) =
          insert w (Fliers j obs₀) := by
        rw [hsplit, fliers_handed, hfliers]
      have hcard : (insert w (Fliers j obs₀)).ncard = (Fliers j obs₀).ncard + 1 :=
        Set.ncard_insert_of_notMem (by simpa [Fliers] using hw) (fliers_finite j obs₀)
      have htakes' : takes j (obs₀ ++ [Obs.signaled j true, Obs.handed (.semWait j) w]) =
          takes j obs₀ := by simp [takes]
      have hsignals : signals j (obs₀ ++ [Obs.signaled j true, Obs.handed (.semWait j) w]) =
          signals j obs₀ + 1 := by simp [signals]
      refine ⟨sem', hsem, h.max_eq, h.max_pos, hlt, hle, fun hpos => by omega, ?_⟩
      rw [hflying, hcard, htakes', hsignals]
      omega

/-- **Every step keeps the books.** -/
theorem SemStep.tokens (h : Inv cfg s) (hg : Grants obs₀ s) (hf : ∀ u, Flight j obs₀ s u)
    (hT : TokenInv sem₀ j obs₀ s.kernel sem) (hs : SemStep cfg s j e obs s') :
    ∃ sem', TokenInv sem₀ j (obs₀ ++ obs) s'.kernel sem' := by
  have hout : ∀ {u}, s.pc u = .user → inFlight j u obs₀ = false := fun {u} hpc =>
    (hf u).not_inFlight (by rw [hpc]; exact not_inTake_user)
  -- a task in the list has not been granted a token
  have hwait : ∀ u, s.sched.eventL.container u = some (.semWait j) →
      inFlight j u obs₀ = false := by
    intro u hu
    have hw := (h.tasks u).waitsOn hu
    have hfu := hf u
    unfold Flight at hfu
    rw [← Bool.not_eq_true, hfu, hg.waits u _ hw]
    rintro ⟨-, hsig⟩
    rcases (h.tasks u).waits hw with hv | hv
    · exact hv.2.2 hsig
    · have hno := hv.1
      rw [show (s.sched.view u).event = s.sched.eventL.container u from rfl, hu] at hno
      simp at hno
  cases hs with
  | other hsem hobs hlist =>
      obtain ⟨hfl, htk, hsg⟩ := tokens_append obs₀ hobs
      refine ⟨sem, hT.keep hsem hlist htk hsg ?_⟩
      ext t
      simp [Fliers, hfl]
  | take hpc hsec =>
      cases hsec with
      | now he =>
          refine he.tokens hT fun t ht => ?_
          rw [← Option.some.inj ht]
          exact hout hpc
      | @block sem' w inf sched hsem hzero hm =>
          have heq : sem' = sem := Option.some.inj (hsem.symm.trans hT.state)
          subst heq
          have hbal := hT.balance
          refine ⟨sem', hT.state, hT.max_eq, hT.max_pos, hT.max_lt, hT.le,
            fun hpos => by omega, ?_⟩
          rw [fliers_snoc_same (by simp) (by simp [isTaken])]
          simpa [takes, signals] using hbal
  | takeIsr he => exact he.tokens hT (by simp)
  | signal hpc he => exact he.tokens hT hwait
  | signalIsr hh he => exact he.tokens hT hwait
  | read hpc =>
      rw [List.append_nil]
      exact ⟨sem, hT⟩
  | @finish t res hpc =>
      have hbal := hT.balance
      refine ⟨sem, hT.state, hT.max_eq, hT.max_pos, hT.max_lt, hT.le, hT.empty, ?_⟩
      have hflies : inFlight j t obs₀ = res := by
        have hres := hg.read t j res hpc
        have hin : (s.pc t).InTake j := Or.inr ⟨res, hpc⟩
        rw [← hres, Bool.eq_iff_iff]
        exact (hf t).trans ⟨fun hc => hc.2, fun hc => ⟨hin, hc⟩⟩
      have hsignals : signals j (obs₀ ++ [Obs.taken j (some t) res]) = signals j obs₀ := by
        simp [signals]
      rw [fliers_taken, hsignals]
      cases res with
      | true =>
          have hcard := Set.ncard_sdiff_singleton_add_one (a := t) (s := Fliers j obs₀) hflies
            (fliers_finite j obs₀)
          have htakes : takes j (obs₀ ++ [Obs.taken j (some t) true]) = takes j obs₀ + 1 := by
            simp [takes]
          rw [htakes]
          omega
      | false =>
          have htakes : takes j (obs₀ ++ [Obs.taken j (some t) false]) = takes j obs₀ := by
            simp [takes]
          rw [htakes, Set.sdiff_singleton_eq_self (by simpa [Fliers] using hflies)]
          exact hbal

/-- A semaphore starts with its books in order. -/
theorem Initial.tokens (h₀ : Initial cfg s₀) (hsem : s₀.kernel.sem j = some sem₀) :
    TokenInv sem₀ j [] s₀.kernel sem₀ := by
  have hbounds : 0 < sem₀.max ∧ sem₀.max < 4294967296 ∧ sem₀.count ≤ sem₀.max := by
    rcases h₀.sem j sem₀ hsem with ⟨storage, b, hinit⟩ | ⟨storage, m, c, hm, hinit⟩
    · unfold artosBinarySemaphoreInit at hinit
      split at hinit
      · simp at hinit
      · rw [Option.some.injEq] at hinit
        subst hinit
        cases b <;> simp
    · unfold artosCountingSemaphoreInit at hinit
      split at hinit
      · simp at hinit
      · rw [Option.some.injEq] at hinit
        subst hinit
        dsimp only
        omega
  obtain ⟨hpos, hlt, hle⟩ := hbounds
  refine ⟨hsem, rfl, hpos, hlt, hle, fun _ u hu => ?_, ?_⟩
  · have hnone : s₀.kernel.sched.eventL.container u = none := by
      rw [show s₀.kernel.sched = s₀.sched from rfl, h₀.sched]
      rfl
    rw [hnone] at hu
    simp at hu
  · simp [takes, signals, Fliers, inFlight]

/-- **The books are in order after every run.** -/
theorem Run.tokens (h₀ : Initial cfg s₀) (hsem : s₀.kernel.sem j = some sem₀)
    {tr : List Label} (hr : Run cfg s₀ tr s) :
    ∃ sem, TokenInv sem₀ j (observations tr) s.kernel sem := by
  have hall := run_history
    (P := fun obs s => Grants obs s ∧ (∀ u, Flight j obs s u) ∧
      ∃ sem, TokenInv sem₀ j obs s.kernel sem)
    h₀ ⟨Run.grants h₀ Runs.Exec.nil, fun u => ?_, sem₀, h₀.tokens hsem⟩
    (fun obs₀ s e obs s' hreach hP hs => ?_) hr
  · exact hall.2.2
  · unfold Flight
    rw [h₀.pc]
    exact iff_of_false (by simp [inFlight]) fun hc => not_inTake_user hc.1
  · obtain ⟨hg, hf, sem, hT⟩ := hP
    exact ⟨hs.grants hreach.inv hg, hs.flight hreach.inv hf,
      (hs.semStep hreach.inv j).tokens hreach.inv hg hf hT⟩

/-! ## Token conservation -/

/-- The event is a signal of the semaphore, by a task or in a handler. -/
def IsSignal (j : ℕ) (e : Event) : Prop :=
  e = .call (.semaphoreSignal j) ∨ ∃ flagged, e = .isrCall (.semaphoreSignal j flagged)

/-- A signal has one of its effects, and where that is none the state stays. -/
theorem signal_effect (h : Inv cfg s) (he : IsSignal j e) (hs : Step cfg s (e, obs) s') :
    ∃ k acts g, SignalEffect s.kernel j k acts obs g ∧
      (k = s.kernel → g = false → s' = s) := by
  rcases he with rfl | ⟨flagged, rfl⟩
  · rcases hrun : s.running with _ | t
    · simp [Step, step, hrun] at hs
    · obtain ⟨hpc, rfl, rfl⟩ := step_call hrun hs
      obtain ⟨acts, g, he, hw⟩ := artosSemaphoreSignal_effect h.ready j
      refine ⟨_, acts, g, he, fun hk hg => ?_⟩
      subst hg
      show s.finish t (artosSemaphoreSignal cfg s.kernel j) = s
      unfold Sys.finish
      rw [hw, hk]
      show { s with pc := update s.pc t .user } = s
      rw [← hpc, update_eq_self]
  · unfold Step step at hs
    rcases hh : s.handlers with _ | ⟨woken, rest⟩
    · simp [hh] at hs
    · simp only [hh] at hs
      split at hs
      · simp only [Option.some.injEq, Prod.mk.injEq] at hs
        obtain ⟨rfl, rfl⟩ := hs
        obtain ⟨acts, g, he, hw⟩ := artosSemaphoreSignalIsr_effect h.ready j flagged woken
        refine ⟨_, acts, g, he, fun hk hg => ?_⟩
        subst hg
        simp only [isrCallStep]
        rw [hw, hk, Bool.and_false, Bool.or_false, ← hh]
      · simp at hs

/-- **Semaphore token conservation.**  After every run, for every semaphore: the
initial count and the successful signals are the count, the successful takes and the
tokens in flight; the count is at most the maximum; with a token in store nobody waits;
a signal returns false exactly at the maximum, and then changes nothing; and a blocked
take returns true exactly when it was granted since it blocked, which only a signal
does. -/
theorem semaphore_conservation (h₀ : Initial cfg s₀) (hsem : s₀.kernel.sem j = some sem₀)
    {tr : List Label} (hr : Run cfg s₀ tr s) :
    ∃ sem, s.kernel.sem j = some sem ∧ sem.max = sem₀.max ∧
      ((sem.count + takes j (observations tr) : ℕ) : ℕ∞) +
          {t | inFlight j t (observations tr) = true}.encard =
        (sem₀.count + signals j (observations tr) : ℕ) ∧
      sem.count ≤ sem.max ∧
      (0 < sem.count → s.sched.eventL.elems (.semWait j) = []) ∧
      (∀ e obs s', IsSignal j e → Step cfg s (e, obs) s' →
        obs.head? = some (.signaled j (decide (sem.count ≠ sem.max))) ∧
          (sem.count = sem.max → s' = s)) ∧
      (∀ t res obs s', s.running = some t → s.pc t = .semClear j res →
        Step cfg s (.resume, obs) s' →
        obs = [.taken j (some t) (granted (.semWait j) t (observations tr))]) ∧
      ∀ t e obs s', Step cfg s (e, obs) s' → Obs.handed (.semWait j) t ∈ obs →
        IsSignal j e := by
  have hI : Inv cfg s := h₀.inv.run hr
  obtain ⟨sem, hT⟩ := Run.tokens h₀ hsem hr
  refine ⟨sem, hT.state, hT.max_eq, ?_, hT.le, fun hpos => ?_, fun e obs s' he hs => ?_,
    fun t res obs s' hrun hpc hs => ?_, fun t e obs s' hs hmem => ?_⟩
  · show _ + (Fliers j (observations tr)).encard = _
    rw [← (fliers_finite j (observations tr)).cast_ncard_eq]
    exact_mod_cast hT.balance
  · rw [List.eq_nil_iff_forall_not_mem]
    intro u hu
    exact hT.empty hpos u (ListStore.container_of_mem hu)
  · obtain ⟨k, acts, g, heff, hsame⟩ := signal_effect hI he hs
    have hle := hT.le
    have hpos := hT.max_pos
    have hstate := hT.state
    cases heff with
    | invalid hno =>
        rw [hstate] at hno
        simp at hno
    | full hsem' hne hfull =>
        have heq := Option.some.inj (hsem'.symm.trans hstate)
        subst heq
        exact ⟨by simp [hfull], fun _ => hsame rfl rfl⟩
    | @store sem' hsem' hroom hempty =>
        have heq : sem' = sem := Option.some.inj (hsem'.symm.trans hstate)
        subst heq
        have hne : sem'.count ≠ sem'.max := fun hc => hroom (by omega) hc
        exact ⟨by simp [hne], fun hc => absurd hc hne⟩
    | @hand sem' w rest hsem' hzero hl =>
        have heq : sem' = sem := Option.some.inj (hsem'.symm.trans hstate)
        subst heq
        have hne : sem'.count ≠ sem'.max := by omega
        exact ⟨by simp [hne], fun hc => absurd hc hne⟩
  · have hres := (Run.grants h₀ hr).read t j res hpc
    have hcur : s.kernel.sched.curTask = some t := (running_eq hrun).1
    unfold Step step at hs
    simp only [hrun, resumeTask, hpc, Option.some.injEq, Prod.mk.injEq] at hs
    rw [← hs.2, hres, artosSemaphoreTakeFinish, hcur]
  · have hstep := (step_kind hI hs).semStep hI j
    cases hstep with
    | other hsem' hobs hlist => exact absurd rfl (hobs _ hmem)
    | take hpc hsec =>
        cases hsec with
        | now he => cases he <;> simp at hmem
        | block hsem' hzero hm => simp at hmem
    | takeIsr he => cases he <;> simp at hmem
    | signal hpc he => exact Or.inl rfl
    | signalIsr hh he => exact Or.inr ⟨_, rfl⟩
    | read hpc => simp at hmem
    | finish hpc => simp at hmem

/-- A low task hands a token to a high one that waits for it. -/
def handedToken : List Label × Sys :=
  (Runs.runSteps (step smallConfig) smallBoot
    [createTask 1 0, createTask 2 1, .start, .call (.semaphoreTake 0 5), .resume, switchFrom 2,
      .call (.semaphoreSignal 0)]).get (by decide +kernel)

theorem handedToken_run : Run smallConfig smallBoot handedToken.1 handedToken.2 :=
  run_of_runSteps (Option.some_get _).symm

theorem semaphore_conservation_handedToken :
    inFlight 0 (.user 1) (observations handedToken.1) = true ∧
      ∃ sem, handedToken.2.kernel.sem 0 = some sem ∧ sem.max = 2 ∧
        ((sem.count + takes 0 (observations handedToken.1) : ℕ) : ℕ∞) +
            {t | inFlight 0 t (observations handedToken.1) = true}.encard =
          (0 + signals 0 (observations handedToken.1) : ℕ) := by
  refine ⟨by decide +kernel, ?_⟩
  have hinit : smallBoot.kernel.sem 0 = some ⟨0, 2⟩ := rfl
  obtain ⟨sem, hsem, hmax, hbal, -⟩ :=
    semaphore_conservation smallBoot_initial hinit handedToken_run
  exact ⟨sem, hsem, hmax, hbal⟩

end Artos
