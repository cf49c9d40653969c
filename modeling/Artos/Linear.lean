/-
# Linearizability

General support for shared objects: histories of overlapping calls, and what it means that
they can be explained by a sequential object.  Nothing here mentions the kernel.

* `Linearizable obj x h` : the calls of the history `h` can be put in a sequential order that
  gives every call that returned its result, and in which no call comes before one that had
  returned before it was made;
* `Watch` : a monitor that is told when the operations take effect, one by one, and that
  remembers for a pending call which results it could have given without changing the object;
* `linearizable_of_watched` : a history that the monitor accepts is linearizable.

A call that fails after a wait takes effect at a moment that is known only later, when it
fails.  Since it changes nothing, the monitor need not be told that moment: the result need
only have been possible at some time while the call was pending.
-/
import Artos.Runs

open Function

namespace Linear

variable {σ ι Op Res : Type*}

/-! ## Histories -/

/-- A sequential object: what an operation of a caller returns, and the state it leaves. -/
abbrev Obj (σ ι Op Res : Type*) := σ → ι → Op → Res × σ

/-- What the callers see. -/
inductive Ev (ι Op Res : Type*) where
  | call (i : ι) (o : Op)
  | ret (i : ι) (r : Res)
  deriving DecidableEq

/-- The caller of an event. -/
def Ev.caller : Ev ι Op Res → ι
  | .call i _ => i
  | .ret i _ => i

/-- The call made at the position `p` of the history returns at the position `q`: nothing of
its caller stands in between. -/
structure Returns (h : List (Ev ι Op Res)) (p q : ℕ) (i : ι) (o : Op) (r : Res) : Prop where
  call : h[p]? = some (.call i o)
  ret : h[q]? = some (.ret i r)
  lt : p < q
  between : ∀ m, p < m → m < q → ∀ e, h[m]? = some e → e.caller ≠ i

/-- The call made at `p` returns before the call at `p'` is made. -/
def Precedes (h : List (Ev ι Op Res)) (p p' : ℕ) : Prop :=
  ∃ q i o r, Returns h p q i o r ∧ q < p'

/-- The call made at `p` has not returned. -/
structure Open (h : List (Ev ι Op Res)) (i : ι) (o : Op) (p : ℕ) : Prop where
  call : h[p]? = some (.call i o)
  after : ∀ m, p < m → ∀ e, h[m]? = some e → e.caller ≠ i

/-! ## Linearizations -/

/-- A call in a sequential order: its position in the history, and its result. -/
structure Entry (ι Op Res : Type*) where
  pos : ℕ
  caller : ι
  op : Op
  res : Res

/-- The sequential object steps as the entry says. -/
def Entry.Legal (obj : Obj σ ι Op Res) (x : σ) (e : Entry ι Op Res) (y : σ) : Prop :=
  obj x e.caller e.op = (e.res, y)

/-- The operations, one after the other. -/
abbrev SeqRun (obj : Obj σ ι Op Res) (x : σ) (L : List (Entry ι Op Res)) (y : σ) : Prop :=
  Runs.Exec (Entry.Legal obj) x L y

/-- **The sequential order `L` explains the history.** -/
structure Linearization (obj : Obj σ ι Op Res) (x : σ) (h : List (Ev ι Op Res))
    (L : List (Entry ι Op Res)) : Prop where
  /-- Every return answers a call. -/
  answered : ∀ q i r, h[q]? = some (.ret i r) → ∃ p o, Returns h p q i o r
  /-- No call stands in the order twice. -/
  nodup : (L.map Entry.pos).Nodup
  calls : ∀ e ∈ L, h[e.pos]? = some (.call e.caller e.op)
  /-- Every call that returned stands in it with its result. -/
  complete : ∀ p q i o r, Returns h p q i o r → ⟨p, i, o, r⟩ ∈ L
  /-- It respects the order of calls that do not overlap. -/
  order : L.Pairwise fun a b => ¬ Precedes h b.pos a.pos
  legal : ∃ y, SeqRun obj x L y

/-- **The history is linearizable.** -/
def Linearizable (obj : Obj σ ι Op Res) (x : σ) (h : List (Ev ι Op Res)) : Prop :=
  ∃ L, Linearization obj x h L

/-! ## The monitor -/

/-- Where a caller stands. -/
inductive Status (Op Res : Type*) where
  | idle
  /-- A call has not taken effect; it could have returned any of the results `seen` without
  changing the object. -/
  | pending (o : Op) (seen : Set Res)
  /-- A call has taken effect. -/
  | done (o : Op) (r : Res)

/-- The results that an operation gives without changing the object. -/
def readOnly (obj : Obj σ ι Op Res) (x : σ) (i : ι) (o : Op) : Set Res :=
  {r | obj x i o = (r, x)}

/-- A pending call sees a state of the object. -/
def Status.see (obj : Obj σ ι Op Res) (x : σ) (i : ι) : Status Op Res → Status Op Res
  | .pending o seen => .pending o (seen ∪ readOnly obj x i o)
  | st => st

/-- The sequential object and its callers. -/
structure Watch (σ ι Op Res : Type*) where
  state : σ
  status : ι → Status Op Res

/-- What the monitor is told. -/
inductive Act (ι Op Res : Type*) where
  | call (i : ι) (o : Op)
  | perform (i : ι)
  | ret (i : ι) (r : Res)

/-- What the callers see of it. -/
def Act.event : Act ι Op Res → Option (Ev ι Op Res)
  | .call i o => some (.call i o)
  | .perform _ => none
  | .ret i r => some (.ret i r)

/-- The history of the actions. -/
def events (acts : List (Act ι Op Res)) : List (Ev ι Op Res) := acts.filterMap Act.event

variable [DecidableEq ι]

/-- **One step of the monitor.** -/
inductive WatchStep (obj : Obj σ ι Op Res) (w : Watch σ ι Op Res) :
    Act ι Op Res → Watch σ ι Op Res → Prop
  | call {i : ι} {o : Op} (hidle : w.status i = .idle) :
      WatchStep obj w (.call i o)
        ⟨w.state, update w.status i (.pending o (readOnly obj w.state i o))⟩
  /-- The call of `i` takes effect, and all other pending calls see the new state. -/
  | perform {i : ι} {o : Op} {seen : Set Res} (hpend : w.status i = .pending o seen) :
      WatchStep obj w (.perform i)
        ⟨(obj w.state i o).2, fun j =>
          (update w.status i (.done o (obj w.state i o).1) j).see obj (obj w.state i o).2 j⟩
  | ret {i : ι} {o : Op} {r : Res} (hdone : w.status i = .done o r) :
      WatchStep obj w (.ret i r) ⟨w.state, update w.status i .idle⟩
  /-- A call that took no effect returns a result that it could have given before. -/
  | retSeen {i : ι} {o : Op} {seen : Set Res} {r : Res} (hpend : w.status i = .pending o seen)
      (hseen : r ∈ seen) :
      WatchStep obj w (.ret i r) ⟨w.state, update w.status i .idle⟩

/-- Nothing has been called. -/
def Watch.start (x : σ) : Watch σ ι Op Res := ⟨x, fun _ => .idle⟩

omit [DecidableEq ι]

/-! ## Histories grow -/

section

variable {h : List (Ev ι Op Res)} {a : Ev ι Op Res} {p p' q : ℕ} {i j : ι} {o o' : Op} {r : Res}

theorem getElem?_snoc_of_some {e : Ev ι Op Res} (hp : h[p]? = some e) :
    (h ++ [a])[p]? = some e := by
  have hlt : p < h.length := (List.getElem?_eq_some_iff.mp hp).1
  rw [List.getElem?_append_left hlt]
  exact hp

/-- An event of the longer history is an old one, or the last. -/
theorem getElem?_snoc {e : Ev ι Op Res} (hp : (h ++ [a])[p]? = some e) :
    h[p]? = some e ∨ p = h.length ∧ a = e := by
  rcases lt_trichotomy p h.length with hlt | rfl | hgt
  · rw [List.getElem?_append_left hlt] at hp
    exact Or.inl hp
  · exact Or.inr ⟨rfl, by simpa using hp⟩
  · rw [List.getElem?_eq_none (by simp; omega)] at hp
    simp at hp

theorem lt_length {e : Ev ι Op Res} (hp : h[p]? = some e) : p < h.length :=
  (List.getElem?_eq_some_iff.mp hp).1

theorem Returns.snoc (hr : Returns h p q i o r) : Returns (h ++ [a]) p q i o r where
  call := getElem?_snoc_of_some hr.call
  ret := getElem?_snoc_of_some hr.ret
  lt := hr.lt
  between := by
    intro m hpm hmq e he
    rcases getElem?_snoc he with hold | ⟨hm, -⟩
    · exact hr.between m hpm hmq e hold
    · have hq := lt_length hr.ret
      omega

/-- A call returns in the longer history if it did before, or returns now. -/
theorem Returns.of_snoc (hr : Returns (h ++ [a]) p q i o r) :
    Returns h p q i o r ∨ q = h.length ∧ a = .ret i r ∧ Open h i o p := by
  have hcall : h[p]? = some (.call i o) := by
    rcases getElem?_snoc hr.call with hold | ⟨hp, -⟩
    · exact hold
    · have hq : q < (h ++ [a]).length := lt_length hr.ret
      have hlt := hr.lt
      simp at hq
      omega
  rcases getElem?_snoc hr.ret with hold | ⟨hq, ha⟩
  · refine Or.inl ⟨hcall, hold, hr.lt, fun m hpm hmq e he => ?_⟩
    exact hr.between m hpm hmq e (getElem?_snoc_of_some he)
  · refine Or.inr ⟨hq, ha, hcall, fun m hpm e he => ?_⟩
    exact hr.between m hpm (hq ▸ lt_length he) e (getElem?_snoc_of_some he)

/-- The order of the calls made so far does not change. -/
theorem Precedes.of_snoc (hp : Precedes (h ++ [a]) p p') (hlt : p' ≤ h.length) :
    Precedes h p p' := by
  obtain ⟨q, i, o, r, hr, hq⟩ := hp
  rcases hr.of_snoc with hold | ⟨hlast, -⟩
  · exact ⟨q, i, o, r, hold, hq⟩
  · omega

/-- A call that has not returned precedes nothing. -/
theorem Open.not_precedes (ho : Open h i o p) : ¬ Precedes h p p' := by
  rintro ⟨q, j, o', r, hr, -⟩
  have hsame := ho.call.symm.trans hr.call
  simp only [Option.some.injEq, Ev.call.injEq] at hsame
  obtain ⟨rfl, rfl⟩ := hsame
  exact ho.after q hr.lt _ hr.ret rfl

/-- A caller has one call that has not returned. -/
theorem Open.unique (ho : Open h i o p) (ho' : Open h i o' p') : p = p' ∧ o = o' := by
  have hp : p = p' := by
    rcases lt_trichotomy p p' with hlt | heq | hgt
    · exact absurd rfl (ho.after p' hlt _ ho'.call)
    · exact heq
    · exact absurd rfl (ho'.after p hgt _ ho.call)
  subst hp
  have hsame := ho.call.symm.trans ho'.call
  simp only [Option.some.injEq, Ev.call.injEq, true_and] at hsame
  exact ⟨rfl, hsame⟩

/-- An event of another caller leaves the open calls open. -/
theorem Open.snoc (ho : Open h i o p) (hne : a.caller ≠ i) : Open (h ++ [a]) i o p where
  call := getElem?_snoc_of_some ho.call
  after := by
    intro m hpm e he
    rcases getElem?_snoc he with hold | ⟨-, rfl⟩
    · exact ho.after m hpm e hold
    · exact hne

/-- An open call that returns now. -/
theorem Open.returns (ho : Open h i o p) : Returns (h ++ [.ret i r]) p h.length i o r where
  call := getElem?_snoc_of_some ho.call
  ret := by simp
  lt := lt_length ho.call
  between := by
    intro m hpm hmq e he
    rcases getElem?_snoc he with hold | ⟨hm, -⟩
    · exact ho.after m hpm e hold
    · omega

/-- A call is open in the longer history if it was, or is made now. -/
theorem Open.of_snoc (ho : Open (h ++ [a]) i o p) :
    Open h i o p ∧ a.caller ≠ i ∨ p = h.length ∧ a = .call i o := by
  rcases getElem?_snoc ho.call with hold | hlast
  · refine Or.inl ⟨⟨hold, fun m hpm e he => ?_⟩, ?_⟩
    · exact ho.after m hpm e (getElem?_snoc_of_some he)
    · exact ho.after h.length (lt_length hold) a (by simp)
  · exact Or.inr hlast

/-- The call that is made now is open. -/
theorem open_snoc : Open (h ++ [.call i o]) i o h.length where
  call := by simp
  after := by
    intro m hm e he
    rcases getElem?_snoc he with hold | ⟨hlast, -⟩
    · have hlt := lt_length hold
      omega
    · omega

end

/-! ## What the monitor explains -/

/-- The call at `p` of `i` can be placed in the sequential order with the result `r`: after
every call that had returned before it was made, where the object does not change. -/
def Fits (obj : Obj σ ι Op Res) (x : σ) (h : List (Ev ι Op Res)) (L : List (Entry ι Op Res))
    (p : ℕ) (i : ι) (o : Op) (r : Res) : Prop :=
  ∃ L₁ L₂ y, L = L₁ ++ L₂ ∧ SeqRun obj x L₁ y ∧ obj y i o = (r, y) ∧
    ∀ b ∈ L₂, ¬ Precedes h b.pos p

/-- **The order `L` explains the history up to the state of the monitor.** -/
structure Explains (obj : Obj σ ι Op Res) (x : σ) (h : List (Ev ι Op Res))
    (w : Watch σ ι Op Res) (L : List (Entry ι Op Res)) : Prop where
  answered : ∀ q i r, h[q]? = some (.ret i r) → ∃ p o, Returns h p q i o r
  nodup : (L.map Entry.pos).Nodup
  calls : ∀ e ∈ L, h[e.pos]? = some (.call e.caller e.op)
  complete : ∀ p q i o r, Returns h p q i o r → ⟨p, i, o, r⟩ ∈ L
  order : L.Pairwise fun a b => ¬ Precedes h b.pos a.pos
  legal : SeqRun obj x L w.state
  idle : ∀ i, w.status i = .idle → ∀ o p, ¬ Open h i o p
  pending : ∀ i o seen, w.status i = .pending o seen → ∃ p, Open h i o p ∧
    (∀ e ∈ L, e.pos ≠ p) ∧ ∀ r ∈ seen, Fits obj x h L p i o r
  done : ∀ i o r, w.status i = .done o r → ∃ p, Open h i o p ∧ ⟨p, i, o, r⟩ ∈ L

section

variable {obj : Obj σ ι Op Res} {x y : σ} {h : List (Ev ι Op Res)} {w w' : Watch σ ι Op Res}
  {L L₁ L₂ : List (Entry ι Op Res)} {a : Ev ι Op Res} {p : ℕ} {i : ι} {o : Op} {r : Res}
  {e : Entry ι Op Res}

/-- A sequential run ends in one state. -/
theorem seqRun_unique {y' : σ} (h₁ : SeqRun obj x L y) (h₂ : SeqRun obj x L y') : y = y' := by
  refine h₁.unique (fun s b s₁ s₂ hs₁ hs₂ => ?_) h₂
  exact (Prod.ext_iff.mp (hs₁.symm.trans hs₂)).2

/-- The present state is one in which a pending call can be placed. -/
theorem fits_now (hrun : SeqRun obj x L y) (hr : r ∈ readOnly obj y i o) :
    Fits obj x h L p i o r :=
  ⟨L, [], y, (List.append_nil L).symm, hrun, hr, by simp⟩

/-- A place in the order remains when the history grows. -/
theorem Fits.snoc (hf : Fits obj x h L p i o r) (hp : p ≤ h.length) :
    Fits obj x (h ++ [a]) L p i o r := by
  obtain ⟨L₁, L₂, y, rfl, hrun, hr, hb⟩ := hf
  exact ⟨L₁, L₂, y, rfl, hrun, hr, fun b hmem hpre => hb b hmem (hpre.of_snoc hp)⟩

/-- A place remains when another call takes effect. -/
theorem Fits.append (hf : Fits obj x h L p i o r) (he : ¬ Precedes h e.pos p) :
    Fits obj x h (L ++ [e]) p i o r := by
  obtain ⟨L₁, L₂, y, rfl, hrun, hr, hb⟩ := hf
  refine ⟨L₁, L₂ ++ [e], y, by simp, hrun, hr, fun b hmem => ?_⟩
  rcases List.mem_append.mp hmem with hold | hnew
  · exact hb b hold
  · obtain rfl : b = e := by simpa using hnew
    exact he

/-- A place remains when another call is placed where it changes nothing. -/
theorem Fits.insert (hf : Fits obj x h (L₁ ++ L₂) p i o r) (hrun : SeqRun obj x L₁ y)
    (hlegal : Entry.Legal obj y e y) (he : ¬ Precedes h e.pos p) :
    Fits obj x h (L₁ ++ [e] ++ L₂) p i o r := by
  obtain ⟨M₁, M₂, z, heq, hz, hr, hb⟩ := hf
  rcases List.append_eq_append_iff.mp heq.symm with ⟨K, rfl, rfl⟩ | ⟨K, rfl, rfl⟩
  · -- the place lies before the new entry
    refine ⟨M₁, K ++ [e] ++ L₂, z, by simp, hz, hr, fun b hmem => ?_⟩
    simp only [List.mem_append, List.mem_singleton] at hmem
    rcases hmem with (hK | rfl) | hL
    · exact hb b (List.mem_append_left _ hK)
    · exact he
    · exact hb b (List.mem_append_right _ hL)
  · -- the place lies behind it
    refine ⟨L₁ ++ [e] ++ K, M₂, z, by simp, ?_, hr, hb⟩
    obtain ⟨y', hL, hK⟩ := hz.append_inv
    obtain rfl := seqRun_unique hrun hL
    exact (hrun.snoc hlegal).trans hK

/-- A pending call that sees a state has its old results and those it could have now. -/
theorem see_eq_pending {st : Status Op Res} {seen : Set Res}
    (h : st.see obj y i = .pending o seen) :
    ∃ old, st = .pending o old ∧ seen = old ∪ readOnly obj y i o := by
  cases st with
  | pending o' old =>
      simp only [Status.see, Status.pending.injEq] at h
      obtain ⟨rfl, rfl⟩ := h
      exact ⟨old, rfl, rfl⟩
  | _ => simp [Status.see] at h

theorem see_eq_idle {st : Status Op Res} (h : st.see obj y i = .idle) : st = .idle := by
  cases st <;> simp_all [Status.see]

theorem see_eq_done {st : Status Op Res} (h : st.see obj y i = .done o r) : st = .done o r := by
  cases st <;> simp_all [Status.see]

variable [DecidableEq ι]

/-- **A call** is pending, and could take effect at once. -/
theorem Explains.call (hx : Explains obj x h w L) (o : Op) :
    Explains obj x (h ++ [.call i o])
      ⟨w.state, update w.status i (.pending o (readOnly obj w.state i o))⟩ L where
  answered := by
    intro q j r hq
    rcases getElem?_snoc hq with hold | ⟨-, hcall⟩
    · obtain ⟨p, o', hr⟩ := hx.answered q j r hold
      exact ⟨p, o', hr.snoc⟩
    · simp at hcall
  nodup := hx.nodup
  calls := fun e he => getElem?_snoc_of_some (hx.calls e he)
  complete := by
    intro p q j o' r hr
    rcases hr.of_snoc with hold | ⟨-, hret, -⟩
    · exact hx.complete p q j o' r hold
    · simp at hret
  order := by
    refine hx.order.imp_of_mem fun {e b} he _ hno hpre => hno (hpre.of_snoc ?_)
    exact (lt_length (hx.calls e he)).le
  legal := hx.legal
  idle := by
    intro j hj o' p hopen
    rcases hopen.of_snoc with ⟨hold, hne⟩ | ⟨-, heq⟩
    · have hji : j ≠ i := fun he => hne he.symm
      exact hx.idle j (by simpa [hji] using hj) o' p hold
    · simp only [Ev.call.injEq] at heq
      obtain ⟨rfl, -⟩ := heq
      simp at hj
  pending := by
    intro j o' seen hj
    by_cases hji : j = i
    · subst hji
      simp only [update_self, Status.pending.injEq] at hj
      obtain ⟨rfl, rfl⟩ := hj
      refine ⟨h.length, open_snoc, fun e he => (lt_length (hx.calls e he)).ne, fun r hr => ?_⟩
      exact (fits_now hx.legal hr)
    · obtain ⟨p, hopen, hnot, hfits⟩ := hx.pending j o' seen (by simpa [hji] using hj)
      refine ⟨p, hopen.snoc (Ne.symm hji), hnot, fun r hr => ?_⟩
      exact (hfits r hr).snoc (lt_length hopen.call).le
  done := by
    intro j o' r hj
    have hji : j ≠ i := by
      rintro rfl
      simp at hj
    obtain ⟨p, hopen, hmem⟩ := hx.done j o' r (by simpa [hji] using hj)
    exact ⟨p, hopen.snoc (Ne.symm hji), hmem⟩

/-- **A call that takes effect** is put at the end of the order. -/
theorem Explains.perform {seen : Set Res} (hx : Explains obj x h w L)
    (hpend : w.status i = .pending o seen) :
    ∃ e, Explains obj x h
      ⟨(obj w.state i o).2, fun j =>
        (update w.status i (.done o (obj w.state i o).1) j).see obj (obj w.state i o).2 j⟩
      (L ++ [e]) := by
  obtain ⟨p, hopen, hnot, -⟩ := hx.pending i o seen hpend
  have hrun : SeqRun obj x (L ++ [⟨p, i, o, (obj w.state i o).1⟩]) (obj w.state i o).2 :=
    hx.legal.snoc rfl
  refine ⟨⟨p, i, o, (obj w.state i o).1⟩, ?_⟩
  constructor
  · exact hx.answered
  · rw [List.map_append, List.nodup_append]
    refine ⟨hx.nodup, by simp, ?_⟩
    intro q hq q' hq' heq
    obtain ⟨e, he, rfl⟩ := List.mem_map.mp hq
    simp only [List.map_cons, List.map_nil, List.mem_singleton] at hq'
    exact hnot e he (heq.trans hq')
  · intro e he
    rcases List.mem_append.mp he with hold | hnew
    · exact hx.calls e hold
    · obtain rfl : e = _ := by simpa using hnew
      exact hopen.call
  · exact fun p' q j o' r hr => List.mem_append_left _ (hx.complete p' q j o' r hr)
  · refine List.pairwise_append.mpr ⟨hx.order, by simp, fun e he b hb => ?_⟩
    obtain rfl : b = _ := by simpa using hb
    exact hopen.not_precedes
  · exact hrun
  · intro j hj o' p'
    have hj' := see_eq_idle hj
    have hji : j ≠ i := by
      rintro rfl
      simp at hj'
    exact hx.idle j (by simpa [hji] using hj') o' p'
  · intro j o' seen' hj
    obtain ⟨old, hold, rfl⟩ := see_eq_pending hj
    have hji : j ≠ i := by
      rintro rfl
      simp at hold
    obtain ⟨p', hopen', hnot', hfits⟩ := hx.pending j o' old (by simpa [hji] using hold)
    refine ⟨p', hopen', fun e he hpos => ?_, fun r hr => ?_⟩
    · rcases List.mem_append.mp he with hmem | hnew
      · exact hnot' e hmem hpos
      · obtain rfl : e = _ := by simpa using hnew
        obtain rfl : p = p' := hpos
        have hsame := hopen.call.symm.trans hopen'.call
        simp only [Option.some.injEq, Ev.call.injEq] at hsame
        exact hji hsame.1.symm
    · rcases hr with hr | hr
      · exact (hfits r hr).append hopen.not_precedes
      · exact fits_now hrun hr
  · intro j o' r hj
    have hj' := see_eq_done hj
    by_cases hji : j = i
    · subst hji
      simp only [update_self, Status.done.injEq] at hj'
      obtain ⟨rfl, rfl⟩ := hj'
      exact ⟨p, hopen, by simp⟩
    · obtain ⟨p', hopen', hmem⟩ := hx.done j o' r (by simpa [hji] using hj')
      exact ⟨p', hopen', List.mem_append_left _ hmem⟩

/-- **A call that has taken effect returns.** -/
theorem Explains.ret (hx : Explains obj x h w L) {p : ℕ} (hopen : Open h i o p)
    (hmem : ⟨p, i, o, r⟩ ∈ L) :
    Explains obj x (h ++ [.ret i r]) ⟨w.state, update w.status i .idle⟩ L where
  answered := by
    intro q j r' hq
    rcases getElem?_snoc hq with hold | ⟨rfl, hret⟩
    · obtain ⟨p', o', hr⟩ := hx.answered q j r' hold
      exact ⟨p', o', hr.snoc⟩
    · simp only [Ev.ret.injEq] at hret
      obtain ⟨rfl, rfl⟩ := hret
      exact ⟨p, o, hopen.returns⟩
  nodup := hx.nodup
  calls := fun e he => getElem?_snoc_of_some (hx.calls e he)
  complete := by
    intro p' q j o' r' hr
    rcases hr.of_snoc with hold | ⟨-, hret, hopen'⟩
    · exact hx.complete p' q j o' r' hold
    · simp only [Ev.ret.injEq] at hret
      obtain ⟨rfl, rfl⟩ := hret
      obtain ⟨rfl, rfl⟩ := hopen.unique hopen'
      exact hmem
  order := by
    refine hx.order.imp_of_mem fun {e b} he _ hno hpre => hno (hpre.of_snoc ?_)
    exact (lt_length (hx.calls e he)).le
  legal := hx.legal
  idle := by
    intro j hj o' p' hopen'
    rcases hopen'.of_snoc with ⟨hold, hne⟩ | ⟨-, heq⟩
    · have hji : j ≠ i := fun he => hne he.symm
      exact hx.idle j (by simpa [hji] using hj) o' p' hold
    · simp at heq
  pending := by
    intro j o' seen hj
    have hji : j ≠ i := by
      rintro rfl
      simp at hj
    obtain ⟨p', hopen', hnot, hfits⟩ := hx.pending j o' seen (by simpa [hji] using hj)
    refine ⟨p', hopen'.snoc (Ne.symm hji), hnot, fun r' hr => ?_⟩
    exact (hfits r' hr).snoc (lt_length hopen'.call).le
  done := by
    intro j o' r' hj
    have hji : j ≠ i := by
      rintro rfl
      simp at hj
    obtain ⟨p', hopen', hmem'⟩ := hx.done j o' r' (by simpa [hji] using hj)
    exact ⟨p', hopen'.snoc (Ne.symm hji), hmem'⟩

/-- **A pending call can be placed in the past**, with a result that it could have given
there; it has then taken effect. -/
theorem Explains.place {seen : Set Res} (hx : Explains obj x h w L)
    (hpend : w.status i = .pending o seen) (hr : r ∈ seen) :
    ∃ L', Explains obj x h ⟨w.state, update w.status i (.done o r)⟩ L' := by
  obtain ⟨p, hopen, hnot, hfits⟩ := hx.pending i o seen hpend
  obtain ⟨L₁, L₂, y, rfl, hrun, hro, hlater⟩ := hfits r hr
  have hlegal : Entry.Legal obj y ⟨p, i, o, r⟩ y := hro
  have hmem : ∀ b : Entry ι Op Res,
      b ∈ L₁ ++ [⟨p, i, o, r⟩] ++ L₂ ↔ b ∈ L₁ ++ L₂ ∨ b = ⟨p, i, o, r⟩ := by
    intro b
    simp only [List.mem_append, List.mem_singleton]
    tauto
  refine ⟨L₁ ++ [⟨p, i, o, r⟩] ++ L₂, ?_⟩
  constructor
  · exact hx.answered
  · have hperm : (L₁ ++ [(⟨p, i, o, r⟩ : Entry ι Op Res)] ++ L₂).Perm
        (⟨p, i, o, r⟩ :: (L₁ ++ L₂)) := by
      rw [List.append_assoc]
      exact List.perm_middle
    rw [(hperm.map Entry.pos).nodup_iff, List.map_cons, List.nodup_cons]
    refine ⟨fun hp => ?_, hx.nodup⟩
    obtain ⟨e, he, hpos⟩ := List.mem_map.mp hp
    exact hnot e he hpos
  · intro e he
    rcases (hmem e).mp he with hold | rfl
    · exact hx.calls e hold
    · exact hopen.call
  · intro p' q j o' r' hret
    exact (hmem _).mpr (Or.inl (hx.complete p' q j o' r' hret))
  · -- nothing behind the new entry had returned before its call, and it has not returned
    obtain ⟨h₁, h₂, h₁₂⟩ := List.pairwise_append.mp hx.order
    refine List.pairwise_append.mpr ⟨List.pairwise_append.mpr ⟨h₁, by simp, fun e _ b hb => ?_⟩, h₂,
      fun e he b hb => ?_⟩
    · obtain rfl : b = _ := by simpa using hb
      exact hopen.not_precedes
    · rcases List.mem_append.mp he with hold | hnew
      · exact h₁₂ e hold b hb
      · obtain rfl : e = _ := by simpa using hnew
        exact hlater b hb
  · obtain ⟨y', hL, hK⟩ := hx.legal.append_inv
    obtain rfl := seqRun_unique hrun hL
    exact (hrun.snoc hlegal).trans hK
  · intro j hj
    have hji : j ≠ i := by
      rintro rfl
      simp at hj
    exact hx.idle j (by simpa [hji] using hj)
  · intro j o' seen' hj
    have hji : j ≠ i := by
      rintro rfl
      simp at hj
    obtain ⟨p', hopen', hnot', hfits'⟩ := hx.pending j o' seen' (by simpa [hji] using hj)
    refine ⟨p', hopen', fun e he hpos => ?_, fun r' hr' => ?_⟩
    · rcases (hmem e).mp he with hold | rfl
      · exact hnot' e hold hpos
      · obtain rfl : p = p' := hpos
        have hsame := hopen.call.symm.trans hopen'.call
        simp only [Option.some.injEq, Ev.call.injEq] at hsame
        exact hji hsame.1.symm
    · exact (hfits' r' hr').insert hrun hlegal hopen.not_precedes
  · intro j o' r' hj
    by_cases hji : j = i
    · subst hji
      simp only [update_self, Status.done.injEq] at hj
      obtain ⟨rfl, rfl⟩ := hj
      exact ⟨p, hopen, (hmem _).mpr (Or.inr rfl)⟩
    · obtain ⟨p', hopen', hold⟩ := hx.done j o' r' (by simpa [hji] using hj)
      exact ⟨p', hopen', (hmem _).mpr (Or.inl hold)⟩

/-- **Every step of the monitor keeps an explanation.** -/
theorem Explains.step {b : Act ι Op Res} (hx : Explains obj x h w L) (hs : WatchStep obj w b w') :
    ∃ L', Explains obj x (h ++ b.event.toList) w' L' := by
  cases hs with
  | call hidle => exact ⟨L, hx.call _⟩
  | perform hpend =>
      obtain ⟨e, he⟩ := hx.perform hpend
      exact ⟨L ++ [e], by simpa [Act.event] using he⟩
  | ret hdone =>
      obtain ⟨p, hopen, hmem⟩ := hx.done _ _ _ hdone
      exact ⟨L, hx.ret hopen hmem⟩
  | @retSeen i o seen r hpend hseen =>
      obtain ⟨L', hL'⟩ := hx.place hpend hseen
      obtain ⟨p, hopen, hmem⟩ := hL'.done i o r (by simp)
      exact ⟨L', by simpa [Act.event] using hL'.ret hopen hmem⟩

omit [DecidableEq ι] in
/-- The empty order explains the empty history. -/
theorem explains_start (obj : Obj σ ι Op Res) (x : σ) :
    Explains obj x [] (Watch.start x) [] where
  answered := by simp
  nodup := by simp
  calls := by simp
  complete := by
    intro p q i o r hr
    simpa using hr.call
  order := List.Pairwise.nil
  legal := Runs.Exec.nil
  idle := by
    intro i _ o p hopen
    simpa using hopen.call
  pending := by simp [Watch.start]
  done := by simp [Watch.start]

/-- **What the monitor accepts is linearizable.** -/
theorem linearizable_of_watched {acts : List (Act ι Op Res)}
    (hr : Runs.Exec (WatchStep obj) (Watch.start x) acts w) : Linearizable obj x (events acts) := by
  have hexp : ∃ L, Explains obj x (events acts) w L := by
    refine hr.trace_invariant (I := fun acts w => ∃ L, Explains obj x (events acts) w L)
      (fun tr w₁ b w₂ hL hs => ?_) ⟨[], explains_start obj x⟩
    obtain ⟨L, hL⟩ := hL
    have hsnoc : events (tr ++ [b]) = events tr ++ b.event.toList := by
      unfold events
      rw [List.filterMap_append]
      cases hb : b.event <;> simp [hb]
    rw [hsnoc]
    exact hL.step hs
  obtain ⟨L, hL⟩ := hexp
  exact ⟨L, hL.answered, hL.nodup, hL.calls, hL.complete, hL.order, w.state, hL.legal⟩

/-! ## Passages of the monitor -/

/-- What others do to the status of a caller: a pending call sees more. -/
inductive Status.Grows : Status Op Res → Status Op Res → Prop
  | idle : Grows .idle .idle
  | pending {o : Op} {seen seen' : Set Res} (hsub : seen ⊆ seen') :
      Grows (.pending o seen) (.pending o seen')
  | done {o : Op} {r : Res} : Grows (.done o r) (.done o r)

theorem Status.Grows.refl (st : Status Op Res) : st.Grows st := by
  cases st with
  | idle => exact .idle
  | pending o seen => exact .pending subset_rfl
  | done o r => exact .done

theorem Status.Grows.trans {st st' st'' : Status Op Res} (h₁ : st.Grows st')
    (h₂ : st'.Grows st'') : st.Grows st'' := by
  cases h₁ with
  | idle => exact h₂
  | pending hsub =>
      cases h₂ with
      | pending hsub' => exact .pending (hsub.trans hsub')
  | done => exact h₂

omit [DecidableEq ι] in
theorem Status.Grows.see (st : Status Op Res) : st.Grows (st.see obj y i) := by
  cases st with
  | idle => exact .idle
  | pending o seen => exact .pending Set.subset_union_left
  | done o r => exact .done

/-- **The monitor passes from `w` to `w'`**: the callers see the events `h`, and none of them
but those in `c` acts. -/
structure Passes (obj : Obj σ ι Op Res) (w : Watch σ ι Op Res) (h : List (Ev ι Op Res))
    (c : Set ι) (w' : Watch σ ι Op Res) : Prop where
  run : ∃ acts, events acts = h ∧ Runs.Exec (WatchStep obj) w acts w'
  others : ∀ j, j ∉ c → (w.status j).Grows (w'.status j)

theorem Passes.refl (w : Watch σ ι Op Res) : Passes obj w [] ∅ w :=
  ⟨⟨[], rfl, Runs.Exec.nil⟩, fun _ _ => .refl _⟩

theorem Passes.trans {h' : List (Ev ι Op Res)} {c c' : Set ι} {w'' : Watch σ ι Op Res}
    (h₁ : Passes obj w h c w') (h₂ : Passes obj w' h' c' w'') :
    Passes obj w (h ++ h') (c ∪ c') w'' := by
  obtain ⟨acts, rfl, hr⟩ := h₁.run
  obtain ⟨acts', rfl, hr'⟩ := h₂.run
  constructor
  · exact ⟨acts ++ acts', List.filterMap_append, hr.trans hr'⟩
  · intro j hj
    rw [Set.mem_union, not_or] at hj
    exact (h₁.others j hj.1).trans (h₂.others j hj.2)

/-- A step in which one caller acts. -/
theorem Passes.single {b : Act ι Op Res} (hs : WatchStep obj w b w')
    (hothers : ∀ j, j ≠ i → (w.status j).Grows (w'.status j)) :
    Passes obj w b.event.toList {i} w' := by
  refine ⟨⟨[b], ?_, Runs.Exec.single hs⟩, hothers⟩
  unfold events
  cases hb : b.event <;> simp [hb]

/-- The others keep their status when one changes. -/
theorem grows_update {f : ι → Status Op Res} {st : Status Op Res} {j : ι} (hj : j ≠ i) :
    (f j).Grows (update f i st j) := by
  rw [update_of_ne hj]
  exact .refl _

/-- An idle caller makes a call. -/
theorem Watch.calls (obj : Obj σ ι Op Res) (hidle : w.status i = .idle) (o : Op) :
    ∃ w', Passes obj w [.call i o] {i} w' ∧ w'.state = w.state ∧
      w'.status i = .pending o (readOnly obj w.state i o) := by
  exact ⟨_, Passes.single (.call hidle) fun _ hj => grows_update hj, rfl, update_self _ _ _⟩

/-- A pending call takes effect. -/
theorem Watch.performs {seen : Set Res} (hpend : w.status i = .pending o seen)
    (ho : obj w.state i o = (r, y)) :
    ∃ w', Passes obj w [] {i} w' ∧ w'.state = y ∧ w'.status i = .done o r := by
  refine ⟨_, Passes.single (.perform hpend) fun j hj => ?_, ?_, ?_⟩
  · exact (grows_update hj).trans (.see _)
  · show (obj w.state i o).2 = y
    rw [ho]
  · simp [ho, Status.see]

/-- A call that has taken effect returns, -/
theorem Watch.returns (obj : Obj σ ι Op Res) (hdone : w.status i = .done o r) :
    ∃ w', Passes obj w [.ret i r] {i} w' ∧ w'.state = w.state ∧ w'.status i = .idle := by
  exact ⟨_, Passes.single (.ret hdone) fun _ hj => grows_update hj, rfl, update_self _ _ _⟩

/-- and one that has not returns what it could have given before. -/
theorem Watch.returnsSeen (obj : Obj σ ι Op Res) {seen : Set Res}
    (hpend : w.status i = .pending o seen) (hseen : r ∈ seen) :
    ∃ w', Passes obj w [.ret i r] {i} w' ∧ w'.state = w.state ∧ w'.status i = .idle := by
  exact ⟨_, Passes.single (.retSeen hpend hseen) fun _ hj => grows_update hj, rfl,
    update_self _ _ _⟩

/-- A pending call takes effect and returns. -/
theorem Watch.completes {seen : Set Res} (hpend : w.status i = .pending o seen)
    (ho : obj w.state i o = (r, y)) :
    ∃ w', Passes obj w [.ret i r] {i} w' ∧ w'.state = y ∧ w'.status i = .idle := by
  obtain ⟨w₁, h₁, hstate₁, hdone⟩ := Watch.performs hpend ho
  obtain ⟨w₂, h₂, hstate₂, hidle⟩ := Watch.returns obj hdone
  exact ⟨w₂, by simpa using h₁.trans h₂, hstate₂.trans hstate₁, hidle⟩

/-- A call takes effect and returns at once. -/
theorem Watch.immediate (hidle : w.status i = .idle) (ho : obj w.state i o = (r, y)) :
    ∃ w', Passes obj w [.call i o, .ret i r] {i} w' ∧ w'.state = y ∧ w'.status i = .idle := by
  obtain ⟨w₁, h₁, hstate₁, hpend⟩ := Watch.calls obj hidle o
  rw [← hstate₁] at ho
  obtain ⟨w₂, h₂, hstate₂, hidle₂⟩ := Watch.completes hpend ho
  exact ⟨w₂, by simpa using h₁.trans h₂, hstate₂, hidle₂⟩

/-- **A call hands over**: it takes effect, the pending call of `j` takes effect right after
it, and it returns. -/
theorem Watch.handsOver {o' : Op} {r' : Res} {seen : Set Res} {z : σ} {j : ι} (hij : j ≠ i)
    (hidle : w.status i = .idle) (hpend : w.status j = .pending o' seen)
    (ho : obj w.state i o = (r, y)) (ho' : obj y j o' = (r', z)) :
    ∃ w', Passes obj w [.call i o, .ret i r] {i, j} w' ∧ w'.state = z ∧
      w'.status i = .idle ∧ w'.status j = .done o' r' := by
  obtain ⟨w₁, h₁, hstate₁, hpend₁⟩ := Watch.calls obj hidle o
  rw [← hstate₁] at ho
  obtain ⟨w₂, h₂, rfl, hdone₂⟩ := Watch.performs hpend₁ ho
  have hj₂ := ((h₁.trans h₂).others j (by simpa using hij))
  rw [hpend] at hj₂
  generalize hst : w₂.status j = st at hj₂
  cases hj₂ with
  | pending hsub =>
      obtain ⟨w₃, h₃, hstate₃, hdone₃⟩ := Watch.performs hst ho'
      have hi₃ := h₃.others i (Ne.symm hij)
      rw [hdone₂] at hi₃
      generalize hst₃ : w₃.status i = st₃ at hi₃
      cases hi₃
      obtain ⟨w₄, h₄, hstate₄, hidle₄⟩ := Watch.returns obj hst₃
      have hj₄ := h₄.others j hij
      rw [hdone₃] at hj₄
      generalize hst₄ : w₄.status j = st₄ at hj₄
      cases hj₄
      refine ⟨w₄, ?_, hstate₄.trans hstate₃, hidle₄, hst₄⟩
      have hall := (h₁.trans h₂).trans (h₃.trans h₄)
      have hcallers : {i} ∪ {i} ∪ ({j} ∪ {i}) = ({i, j} : Set ι) := by
        ext m
        simp
        tauto
      rw [hcallers] at hall
      simpa using hall

end

end Linear
