import Mathlib.Data.List.Basic
import Mathlib.Data.List.Find
import Statechart.Proofs.Anonymity
import Statechart.Proofs.Zones

/-!
# Evaluations in step

Two evaluations go in step while they look at nothing but what their runs have in common. Their models may differ in
names, and the sinks and random sources in whatever they keep outside. A relation between runs that withstands all that
can be done to both at once is kept by every part of an evaluation that both go through.
-/

namespace Statechart

variable {μ δ σ τ α β : Type}

theorem Route.steps_detours_congr {candidates : List (Detour μ δ)} {i i' : Instance δ}
    (hi : ∀ d ∈ candidates, i.current? d.region = i'.current? d.region) :
    (Route.detours candidates).steps i = (Route.detours candidates).steps i' := by
  have hfind : (candidates.find? fun d => i.current? d.region != some d.vertex) =
      candidates.find? fun d => i'.current? d.region != some d.vertex :=
    List.find?_congr fun d hd => by rw [hi d hd]
  simp only [Route.steps, hfind]

namespace Model

variable {m m' : Model μ δ} {plainly : RegionId → Bool} {A : Action μ δ → Prop} {V : VertexId → Prop}

theorem mem_detours {t : TransitionId} {u : VertexId} {l : List VertexId} {d : Detour μ δ}
    (hd : d ∈ m.detours plainly t u l) : d.vertex ∈ l ∧ m.parent? d.vertex = some d.region := by
  induction l with
  | nil => cases hd
  | cons v l ih =>
    have hrest : d ∈ m.detours plainly t u l → d.vertex ∈ v :: l ∧ m.parent? d.vertex = some d.region :=
      fun hd => ⟨List.mem_cons_of_mem v (ih hd).1, (ih hd).2⟩
    unfold detours at hd
    cases hp : m.parent? v with
    | none =>
      rw [hp] at hd
      exact hrest hd
    | some r =>
      rw [hp] at hd
      rcases List.mem_cons.mp hd with rfl | hd
      · exact ⟨List.mem_cons_self, hp⟩
      · exact hrest hd

/-! ## Steps that keep to a precinct -/

/-- Whatever the transitions out of `V` leave, enter and lead to is in `V`, and of a region's vertices either all are
or none is. -/
structure Precinct (m : Model μ δ) (V : VertexId → Prop) : Prop where
  hereditary : m.Hereditary V
  whole : ∀ {v w}, V v → m.parent? w = m.parent? v → V w
  target : ∀ {t record u}, m.transition? t = some record → V record.source → record.target = some u → V u
  apex : ∀ {t record u d}, m.transition? t = some record → V record.source → record.target = some u →
    (m.chain record.source)[m.divergence (m.chain record.source) (m.chain u)]? = some d → V d

def Hosts (m : Model μ δ) (V : VertexId → Prop) (kind : PseudoKind) : Prop :=
  ∃ v record, V v ∧ m.vertex? v = some record ∧ record.form = .pseudo kind

def Inner (m : Model μ δ) (A : Action μ δ → Prop) (V : VertexId → Prop) (s : Step μ δ) : Prop :=
  m.Within A V s ∧ (∀ r, s = .leaveRegion r → ∀ w, m.parent? w = some r → V w) ∧ (s = .terminate → m.Hosts V .terminate)

theorem Beginning.inner {s : Step μ δ} (hA : m.Acts A) (hs : m.Beginning V s) : m.Inner A V s := by
  refine ⟨hs.within hA, ?_, ?_⟩
  · rintro r rfl
    cases hs
  · rintro rfl
    cases hs with
    | @terminate v hv hk =>
      obtain ⟨record, hrec, hf⟩ := kind?_eq_some.mp hk
      exact ⟨v, record, hv, hrec, hf⟩

section
variable (h : m.Arena) (hA : m.Acts A)
include h hA

theorem Arriving.inner {s : Step μ δ} (hs : m.Arriving V s) : m.Inner A V s := by
  have hwithin := hs.within h hA
  cases hs with
  | begin hs => exact hs.inner hA
  | _ => exact ⟨hwithin, nofun, nofun⟩

theorem Departing.inner {s : Step μ δ} {v : VertexId} (hs : m.Departing v s)
    (hV : ∀ r, s = .leaveRegion r → ∀ w, m.parent? w = some r → V w) : m.Inner A V s :=
  ⟨hs.within h hA, hV, by rintro rfl; cases hs⟩

theorem inner_leaveVertex (hV : m.Hereditary V) {v : VertexId} (hv : V v) : ∀ s ∈ m.leaveVertex v, m.Inner A V s := by
  intro s hs
  have hdeparting := departing_leaveVertex v s hs
  refine hdeparting.inner h hA ?_
  rintro r rfl
  cases hdeparting with
  | leave hr => exact hV.members h hv hr

section
variable (hV : m.Precinct V) {t : TransitionId} {record : Transition μ δ} (hrec : m.transition? t = some record)
variable (hsource : V record.source)
include hV hrec hsource

theorem inner_route (i : Instance δ) : ∀ s ∈ (m.route plainly t).steps i, m.Inner A V s := by
  cases hu : record.target with
  | none =>
    rw [steps_internal hrec hu]
    exact fun s hs => (arriving_effectsOf t s hs).inner h hA
  | some u =>
    have hknown := h.target_isSome hrec hu
    have harrival : ∀ {e rest}, V e → m.Descent (e :: rest) u →
        ∀ s ∈ m.arrival plainly t (e :: rest) u, m.Inner A V s := fun he hdescent s hs => by
      obtain ⟨hall, hvu⟩ := hdescent.forall_mem hV.hereditary (by rintro _ ⟨⟩; exact he)
      exact (arriving_arrival h hV.hereditary t hall hvu s hs).inner h hA
    intro s hs
    -- A local transition goes on beneath its source. Any other one leaves from the apex, which is in the precinct, and
    -- arrives in the same region.
    by_cases hl : m.IsLocal record u
    · obtain ⟨l, e, rest, r, hbelow, hp, hsteps, _⟩ := @steps_local _ _ m plainly t record u hrec h hu hl i
      obtain ⟨l', hl'⟩ := exists_append_below ((isAncestor_iff h hknown).mp hl.2.2)
      rw [hbelow] at hl'
      have hdescent : m.Descent (record.source :: (l ++ e :: rest)) u := descent_of_append h hknown hl'
      have he : V e := (hdescent.forall_mem hV.hereditary (by rintro _ ⟨⟩; exact hsource)).1 e (by simp)
      rw [← List.cons_append] at hdescent
      rw [hsteps] at hs
      rcases List.mem_append.mp hs with hs | hs
      · obtain ⟨o, ho⟩ := h.owner?_of_parent? hp
        refine (departing_leaveRegion (h.mem_regionsOf.mpr ho) s hs).inner h hA ?_
        rintro q rfl w hw
        simp only [leaveRegion, List.mem_cons, Step.leaveRegion.injEq, reduceCtorEq, List.not_mem_nil, or_false] at hs
        exact hV.whole he (hw.trans (hs ▸ hp.symm))
      · exact harrival he (hdescent.suffix (by simp)) s hs
    · obtain ⟨d, e, rest, hd, hdrop, hparent, hsteps⟩ := @steps_direct _ _ m plainly t record u hrec hu hl i
      have hvd := hV.apex hrec hsource hu hd
      have hdescent := descent_of_drop h hknown hdrop
      rw [hsteps] at hs
      exact (List.mem_append.mp hs).elim (inner_leaveVertex h hA hV.hereditary hvd s)
        (harrival (hV.whole hvd hparent.symm) hdescent s)

omit hA in
theorem steps_congr {i i' : Instance δ}
    (hi : ∀ r, (∀ w, m.parent? w = some r → V w) → i.current? r = i'.current? r) :
    (m.route plainly t).steps i = (m.route plainly t).steps i' := by
  cases hu : record.target with
  | none => rw [steps_internal hrec hu, steps_internal hrec hu]
  | some u =>
    have hknown := h.target_isSome hrec hu
    by_cases hl : m.IsLocal record u
    · have hmem := (isAncestor_iff h hknown).mp hl.2.2
      have hroute : m.route plainly t = .detours (m.detours plainly t u (below record.source (m.chain u))) := by
        have hif : record.kind = .withinSource ∧ record.source ≠ u ∧ m.isAncestor record.source u = true := hl
        simp [route, hrec, hu, hif]
      obtain ⟨l, hl⟩ := exists_append_below hmem
      have hbelow := ((descent_of_append h hknown hl).forall_mem hV.hereditary (by rintro _ ⟨⟩; exact hsource)).1
      rw [hroute]
      refine Route.steps_detours_congr fun d hd => hi d.region fun w hw => ?_
      obtain ⟨hvertex, hp⟩ := mem_detours hd
      exact hV.whole (hbelow d.vertex (List.mem_cons_of_mem _ hvertex)) (hw.trans hp.symm)
    · obtain ⟨d, e, rest, hd, hdrop, _, hsteps⟩ := @steps_direct _ _ m plainly t record u hrec hu hl i
      obtain ⟨d', e', rest', hd', hdrop', _, hsteps'⟩ := @steps_direct _ _ m plainly t record u hrec hu hl i'
      rw [hd, Option.some.injEq] at hd'
      rw [hdrop] at hdrop'
      rw [hsteps, hsteps', hd', hdrop']

end

end

/-! ## Models that differ in names -/

section
variable (hm : m.anonymous = m'.anonymous)
include hm

theorem transition?_of_anonymous (t : TransitionId) : m'.transition? t = m.transition? t := by
  rw [← transition?_anonymous (m := m), hm, transition?_anonymous]

theorem isElse_of_anonymous : m'.isElse = m.isElse := by
  funext t
  rw [← isElse_anonymous (m := m), hm, isElse_anonymous]

theorem isActive?_of_anonymous (i : Instance δ) (v : VertexId) : m'.isActive? i v = m.isActive? i v := by
  rw [← isActive?_anonymous (m := m), hm, isActive?_anonymous]

theorem isComplete?_of_anonymous (i : Instance δ) (v : VertexId) : m'.isComplete? i v = m.isComplete? i v := by
  rw [← isComplete?_anonymous (m := m), hm, isComplete?_anonymous]

theorem regionsOf_of_anonymous (v : VertexId) : m'.regionsOf v = m.regionsOf v := by
  rw [← regionsOf_anonymous (m := m), hm, regionsOf_anonymous]

theorem vertex?_of_anonymous (v : VertexId) :
    (m.vertex? v).map Vertex.anonymous = (m'.vertex? v).map Vertex.anonymous := by
  rw [← vertex?_anonymous, hm, vertex?_anonymous]

theorem isNone_vertex?_of_anonymous (v : VertexId) : (m'.vertex? v).isNone = (m.vertex? v).isNone := by
  rw [← Option.isNone_map, ← vertex?_of_anonymous hm, Option.isNone_map]

end

end Model

/-! ## Evaluations in step -/

inductive Alongside (Q : α → Run μ δ σ → Run μ δ τ → Prop) (E : Run μ δ σ → Run μ δ τ → Prop) :
    EStateM.Result Halt (Run μ δ σ) α → EStateM.Result Halt (Run μ δ τ) α → Prop
  | ok {a : α} {run : Run μ δ σ} {run' : Run μ δ τ} : Q a run run' → Alongside Q E (.ok a run) (.ok a run')
  | error {e e' : Halt} {run : Run μ δ σ} {run' : Run μ δ τ} : e.anonymous = e'.anonymous → E run run' →
      Alongside Q E (.error e run) (.error e' run')

/-- Started from runs that `P` relates, the evaluations come to the same, and leave runs that `Q` relates, or `E` where
they stop short. -/
def Tandem (P : Run μ δ σ → Run μ δ τ → Prop) (x : Eval μ δ σ α) (y : Eval μ δ τ α)
    (Q : α → Run μ δ σ → Run μ δ τ → Prop) (E : Run μ δ σ → Run μ δ τ → Prop) : Prop :=
  ∀ run run', P run run' → Alongside Q E (x run) (y run')

abbrev InStep (J : Run μ δ σ → Run μ δ τ → Prop) (x : Eval μ δ σ α) (y : Eval μ δ τ α) : Prop :=
  Tandem J x y (fun _ => J) J

namespace Tandem

variable {P : Run μ δ σ → Run μ δ τ → Prop} {Q : α → Run μ δ σ → Run μ δ τ → Prop}
variable {E : Run μ δ σ → Run μ δ τ → Prop} {x : Eval μ δ σ α} {y : Eval μ δ τ α}

theorem start (h : Tandem P x y Q E) {run : Run μ δ σ} {run' : Run μ δ τ} (hr : P run run') :
    Tandem (fun start start' => start = run ∧ start' = run') x y Q E := by
  rintro _ _ ⟨rfl, rfl⟩
  exact h _ _ hr

theorem of_imp {p : Prop} (h : p → Tandem P x y Q E) : Tandem (fun run run' => P run run' ∧ p) x y Q E :=
  fun run run' hr => h hr.2 run run' hr.1

theorem pure {a : α} (h : ∀ run run', P run run' → Q a run run') :
    Tandem P (Pure.pure a : Eval μ δ σ α) (Pure.pure a : Eval μ δ τ α) Q E :=
  fun run run' hr => .ok (h run run' hr)

theorem throw {e e' : Halt} (he : e.anonymous = e'.anonymous) (h : ∀ run run', P run run' → E run run') :
    Tandem P (MonadExcept.throw e : Eval μ δ σ α) (MonadExcept.throw e' : Eval μ δ τ α) Q E :=
  fun run run' hr => .error he (h run run' hr)

theorem throw_bind {e e' : Halt} {F : β → Eval μ δ σ α} {G : β → Eval μ δ τ α} (he : e.anonymous = e'.anonymous)
    (h : ∀ run run', P run run' → E run run') :
    Tandem P ((MonadExcept.throw e : Eval μ δ σ β) >>= F) ((MonadExcept.throw e' : Eval μ δ τ β) >>= G) Q E :=
  fun run run' hr => .error he (h run run' hr)

theorem modify {f : Run μ δ σ → Run μ δ σ} {g : Run μ δ τ → Run μ δ τ} {Q : PUnit → Run μ δ σ → Run μ δ τ → Prop}
    (h : ∀ run run', P run run' → Q ⟨⟩ (f run) (g run')) :
    Tandem P (modify f : Eval μ δ σ PUnit) (modify g : Eval μ δ τ PUnit) Q E :=
  fun run run' hr => .ok (h run run' hr)

theorem bind {R : α → Run μ δ σ → Run μ δ τ → Prop} {Q : β → Run μ δ σ → Run μ δ τ → Prop}
    {F : α → Eval μ δ σ β} {G : α → Eval μ δ τ β} (h : Tandem P x y R E) (hF : ∀ a, Tandem (R a) (F a) (G a) Q E) :
    Tandem P (x >>= F) (y >>= G) Q E := by
  intro run run' hr
  have hxy := h run run' hr
  change Alongside Q E (EStateM.bind x F run) (EStateM.bind y G run')
  unfold EStateM.bind
  generalize x run = result at hxy ⊢
  generalize y run' = result' at hxy ⊢
  cases hxy with
  | ok hR => exact hF _ _ _ hR
  | error he hE => exact .error he hE

theorem ite_bind {p : Prop} [Decidable p] {x' : Eval μ δ σ α} {y' : Eval μ δ τ α}
    {R : α → Run μ δ σ → Run μ δ τ → Prop} {Q : β → Run μ δ σ → Run μ δ τ → Prop} {F : α → Eval μ δ σ β}
    {G : α → Eval μ δ τ β} (h : p → Tandem P x y R E) (h' : ¬ p → Tandem P x' y' R E)
    (hF : ∀ a, Tandem (R a) (F a) (G a) Q E) :
    Tandem P (if p then x >>= F else x' >>= F) (if p then y >>= G else y' >>= G) Q E := by
  by_cases hp : p
  · rw [if_pos hp, if_pos hp]
    exact (h hp).bind hF
  · rw [if_neg hp, if_neg hp]
    exact (h' hp).bind hF

theorem inst_bind {Q : β → Run μ δ σ → Run μ δ τ → Prop} {F : Instance δ → Eval μ δ σ β}
    {G : Instance δ → Eval μ δ τ β} (h : ∀ run run', P run run' →
      Tandem (fun start start' => start = run ∧ start' = run') (F run.inst) (G run'.inst) Q E) :
    Tandem P (Eval.inst >>= F) (Eval.inst >>= G) Q E :=
  fun run run' hr => h run run' hr run run' ⟨rfl, rfl⟩

end Tandem

namespace Eval

open Model

variable {m m' : Model μ δ} {c : Context σ} {c' : Context τ} {A : Action μ δ → Prop} {V : VertexId → Prop}
variable {plainly : RegionId → Bool} {P J : Run μ δ σ → Run μ δ τ → Prop} {k : Nat}

/-! ## Relations that withstand an evaluation -/

/-- The relation withstands what is done to vertices in `V` by two evaluations at once, whose actions satisfy `A`. As
long as it holds, what they look at there is the same. -/
structure Bond (m m' : Model μ δ) (c : Context σ) (c' : Context τ) (A : Action μ δ → Prop) (V : VertexId → Prop)
    (J : Run μ δ σ → Run μ δ τ → Prop) : Prop where
  enter : ∀ element, InStep J (announceEnter m c element) (announceEnter m' c' element)
  leave : ∀ element, InStep J (announceLeave m c element) (announceLeave m' c' element)
  act : ∀ trigger cause action, A action → InStep J (act trigger cause action) (act trigger cause action)
  record : ∀ r v, m.parent? v = some r → m.isState v = true → V v →
    InStep J (update (·.setCurrent r v)) (update (·.setCurrent r v))
  terminate : m.Hosts V .terminate → InStep J (update (·.setTerminated true)) (update (·.setTerminated true))
  arrived : ∀ run run' l, (∀ v ∈ l, V v) → J run run' → J { run with arrived := l } { run' with arrived := l }
  offered : ∀ v trigger, InStep J (note (.offered v trigger)) (note (.offered v trigger))
  fired : ∀ run run' t record trigger, m.transition? t = some record → V record.source → J run run' →
    J (run.note (.fired t trigger run.inst)) (run'.note (.fired t trigger run'.inst))
  report : ∀ e e' : MachineError, e.anonymous = e'.anonymous → InStep J (report c e) (report c' e')
  draw : m.Hosts V .choice → ∀ count, InStep J (draw c count) (draw c' count)
  sameTerminated : ∀ run run', J run run' → run.inst.terminated = run'.inst.terminated
  sameArrived : ∀ run run', J run run' → run.arrived = run'.arrived ∧ ∀ v ∈ run.arrived, V v
  sameCurrent : ∀ run run' r, (∀ w, m.parent? w = some r → V w) → J run run' →
    run.inst.current? r = run'.inst.current? r ∧ ∀ v, run.inst.current? r = some v → V v
  sameActive : ∀ run run' v, V v → J run run' → m.isActive? run.inst v = m.isActive? run'.inst v
  sameCheck : ∀ run run' t record trigger, m.transition? t = some record → V record.source → J run run' →
    record.guard.check record.source trigger run.inst = record.guard.check record.source trigger run'.inst

theorem inStep_report {e e' : MachineError} (he : e.anonymous = e'.anonymous)
    (hJ : ∀ run run', J run run' → (c.tolerate e run.outside).1 = (c'.tolerate e' run'.outside).1 ∧
      J { run.note (.reported e) with outside := (c.tolerate e run.outside).2 }
        { run'.note (.reported e') with outside := (c'.tolerate e' run'.outside).2 }) :
    InStep J (report c e) (report c' e') := by
  intro run run' hr
  have hboth := hJ run run' hr
  unfold report
  generalize c.tolerate e run.outside = taken at hboth ⊢
  generalize c'.tolerate e' run'.outside = taken' at hboth ⊢
  obtain ⟨passes, s⟩ := taken
  obtain ⟨passes', s'⟩ := taken'
  obtain ⟨hpasses, hkept⟩ := hboth
  cases hpasses
  cases passes with
  | true => exact .ok hkept
  | false => exact .error (by simp [Halt.anonymous, he]) hkept

theorem inStep_draw {count : Nat} (hJ : ∀ run run', J run run' →
    (c.random count run.outside).1 = (c'.random count run'.outside).1 ∧
      J { run.note (.drew count (c.random count run.outside).1) with outside := (c.random count run.outside).2 }
        { run'.note (.drew count (c'.random count run'.outside).1) with outside := (c'.random count run'.outside).2 }) :
    InStep J (draw c count) (draw c' count) := by
  intro run run' hr
  obtain ⟨hvalue, hkept⟩ := hJ run run' hr
  change Alongside _ _ (.ok ((c.random count run.outside).1 % count) _)
    (.ok ((c'.random count run'.outside).1 % count) _)
  rw [← hvalue] at hkept ⊢
  exact .ok hkept

structure Abides (m m' : Model μ δ) (plainly : RegionId → Bool) (c : Context σ) (c' : Context τ)
    (A : Action μ δ → Prop) (V : VertexId → Prop) (J : Run μ δ σ → Run μ δ τ → Prop) (k : Nat) : Prop where
  step : ∀ mode s, m.Inner A V s →
    InStep J (performStep m (m.compileWith plainly) c k mode s) (performStep m' (m.compileWith plainly) c' k mode s)
  traverse : ∀ mode t record, m.transition? t = some record → V record.source →
    InStep J (traverse m (m.compileWith plainly) c k mode t) (traverse m' (m.compileWith plainly) c' k mode t)
  follow : ∀ trigger t record, m.transition? t = some record → V record.source →
    InStep J (follow m (m.compileWith plainly) c k trigger t) (follow m' (m.compileWith plainly) c' k trigger t)
  completeAll : ∀ l, (∀ v ∈ l, V v) →
    InStep J (completeAll m (m.compileWith plainly) c k l) (completeAll m' (m.compileWith plainly) c' k l)
  complete : ∀ v, V v →
    InStep J (complete m (m.compileWith plainly) c k v) (complete m' (m.compileWith plainly) c' k v)
  offer : ∀ trigger v, V v →
    InStep J (offer m (m.compileWith plainly) c k trigger v) (offer m' (m.compileWith plainly) c' k trigger v)
  offerBeneath : ∀ trigger v rs, V v → (∀ r ∈ rs, ∀ w, m.parent? w = some r → V w) →
    InStep J (offerBeneath m (m.compileWith plainly) c k trigger v rs)
      (offerBeneath m' (m.compileWith plainly) c' k trigger v rs)

theorem Abides.perform {n : Nat} (hK : ∀ j < n, Abides m m' plainly c c' A V J j) (mode : Mode μ)
    {l : List (Step μ δ)} (hl : ∀ s ∈ l, m.Inner A V s) {j : Nat} (hj : j ≤ n) :
    InStep J (perform m (m.compileWith plainly) c j mode l) (perform m' (m.compileWith plainly) c' j mode l) := by
  induction l generalizing j with
  | nil => cases j <;> exact Tandem.pure fun _ _ hr => hr
  | cons s l ih =>
    cases j with
    | zero => exact Tandem.throw rfl fun _ _ hr => hr
    | succ j =>
      simp only [Eval.perform]
      exact ((hK j hj).step mode s (hl s List.mem_cons_self)).bind fun _ =>
        ih (fun s hs => hl s (List.mem_cons_of_mem _ hs)) (by omega)

/-! ## What both look at -/

theorem tandem_behavior {p : Program μ δ} {v : VertexId} :
    Tandem J (behavior p v) (behavior p v) (fun b run run' => J run run' ∧ p.vertex? v = some b) J := by
  unfold behavior
  cases hv : p.vertex? v with
  | none => exact Tandem.throw rfl fun _ _ hr => hr
  | some b => exact Tandem.pure fun _ _ hr => ⟨hr, rfl⟩

section
variable (hm : m.anonymous = m'.anonymous)
include hm

theorem tandem_vertex_bind {v : VertexId} {Q : α → Run μ δ σ → Run μ δ τ → Prop} {F : Vertex μ δ → Eval μ δ σ α}
    {G : Vertex μ δ → Eval μ δ τ α}
    (hF : ∀ record record', m.vertex? v = some record → record'.form = record.form →
      record'.outgoing = record.outgoing → Tandem J (F record) (G record') Q J) :
    Tandem J (vertex m v >>= F) (vertex m' v >>= G) Q J := by
  have hsame := vertex?_of_anonymous hm v
  unfold vertex
  cases hv : m.vertex? v with
  | none =>
    rw [hv, Option.map_none, eq_comm, Option.map_eq_none_iff] at hsame
    rw [hsame]
    exact Tandem.throw_bind rfl fun _ _ hr => hr
  | some record =>
    rw [hv, Option.map_some, eq_comm, Option.map_eq_some_iff] at hsame
    obtain ⟨record', hv', heq⟩ := hsame
    rw [hv']
    have hform : record'.anonymous.form = record.anonymous.form := by rw [heq]
    have houtgoing : record'.anonymous.outgoing = record.anonymous.outgoing := by rw [heq]
    exact hF record record' hv hform houtgoing

section
variable (h : m.Arena) (hV : m.Precinct V) (hJ : Bond m m' c c' A V J) {v : VertexId} (hv : V v)
include hJ hv

theorem inStep_isActive : InStep J (isActive m v) (isActive m' v) := by
  refine Tandem.inst_bind fun run run' hr => ?_
  rw [isActive?_of_anonymous hm, ← hJ.sameActive run run' v hv hr]
  cases m.isActive? run.inst v with
  | none => exact (Tandem.throw rfl fun _ _ hr => hr).start hr
  | some active => exact (Tandem.pure fun _ _ hr => hr).start hr

include h hV

theorem foreignBeneath_congr {run : Run μ δ σ} {run' : Run μ δ τ} (hr : J run run') :
    foreignBeneath m' v run'.inst = foreignBeneath m v run.inst := by
  have hrecorded : (m.regionsOf v).filterMap run'.inst.current? = (m.regionsOf v).filterMap run.inst.current? :=
    List.filterMap_congr fun r hmem =>
      (hJ.sameCurrent run run' r (Hereditary.members h hV.hereditary hv hmem) hr).1.symm
  unfold foreignBeneath
  simp only [regionsOf_of_anonymous hm, isNone_vertex?_of_anonymous hm, hrecorded]

theorem inStep_isComplete : InStep J (isComplete m v) (isComplete m' v) := by
  refine Tandem.inst_bind fun run run' hr => ?_
  have hcomplete : m'.isComplete? run'.inst v = m.isComplete? run.inst v := by
    rw [isComplete?_of_anonymous hm]
    exact isComplete?_congr fun r hmem =>
      (hJ.sameCurrent run run' r (Hereditary.members h hV.hereditary hv hmem) hr).1.symm
  rw [hcomplete, foreignBeneath_congr hm h hV hJ hv hr]
  cases m.isComplete? run.inst v with
  | none => exact (Tandem.throw rfl fun _ _ hr => hr).start hr
  | some complete => exact (Tandem.pure fun _ _ hr => hr).start hr

end

/-! ## The way on from a branch -/

section
variable (h : m.Arena) (hJ : Bond m m' c c' A V J) {v : VertexId} (hv : V v) (trigger : Trigger μ)
include hJ

include h hv in
theorem enabled_congr {run : Run μ δ σ} {run' : Run μ δ τ} (hr : J run run') :
    enabled m' v (m.outgoing v) trigger run'.inst = enabled m v (m.outgoing v) trigger run.inst := by
  refine List.filter_congr fun t ht => ?_
  obtain ⟨record, hrec, rfl⟩ := h.source_of_mem_outgoing ht
  rw [transition?_of_anonymous hm, hrec, Option.any_some, Option.any_some,
    hJ.sameCheck run run' t record trigger hrec hv hr]

include h hv in
theorem tandem_selectBranch {record : Vertex μ δ} {kind : PseudoKind} (hrec : m.vertex? v = some record)
    (hf : record.form = .pseudo kind) (hb : kind.isBranch = true) :
    Tandem J (selectBranch m c v kind (m.outgoing v) trigger) (selectBranch m' c' v kind (m.outgoing v) trigger)
      (fun next run run' => J run run' ∧ ∀ t, next = some t → t ∈ m.outgoing v) J := by
  have hnone : ∀ e e' : MachineError, e.anonymous = e'.anonymous →
      Tandem J (do report c e; pure none) (do report c' e'; pure none)
        (fun next run run' => J run run' ∧ ∀ t, next = some t → t ∈ m.outgoing v) J := fun e e' he =>
    (hJ.report e e' he).bind fun _ => Tandem.pure fun _ _ hr => ⟨hr, nofun⟩
  have hsome : ∀ t ∈ m.outgoing v, Tandem J (pure (some t)) (pure (some t))
      (fun next run run' => J run run' ∧ ∀ t, next = some t → t ∈ m.outgoing v) J := fun t ht =>
    Tandem.pure fun _ _ hr => ⟨hr, by rintro _ ⟨⟩; exact ht⟩
  have hdraw : kind = .choice → ∀ l : List TransitionId, (∀ t ∈ l, t ∈ m.outgoing v) →
      Tandem J (do let index ← draw c l.length; pure l[index]?) (do let index ← draw c' l.length; pure l[index]?)
        (fun next run run' => J run run' ∧ ∀ t, next = some t → t ∈ m.outgoing v) J := fun hk l hl =>
    (hJ.draw ⟨v, record, hv, hrec, hk ▸ hf⟩ l.length).bind fun index => Tandem.pure fun _ _ hr =>
      ⟨hr, fun t ht => hl t (List.mem_of_getElem? ht)⟩
  refine Tandem.inst_bind fun run run' hr => ?_
  rw [enabled_congr hm h hJ hv trigger hr, isElse_of_anonymous hm]
  have hmem : ∀ t ∈ enabled m v (m.outgoing v) trigger run.inst, t ∈ m.outgoing v := fun t ht =>
    (List.mem_filter.mp ht).1
  -- The same transitions are enabled for both, so both take the same branch or report the same error.
  rcases he : enabled m v (m.outgoing v) trigger run.inst with _ | ⟨t, _ | ⟨t', rest⟩⟩
  · cases hf : (m.outgoing v).find? m.isElse with
    | none =>
      exact (hnone (.noBranch (m.qualifiedName (.vertex v))) (.noBranch (m'.qualifiedName (.vertex v))) rfl).start hr
    | some t => exact (hsome t (List.mem_of_find?_eq_some hf)).start hr
  · rw [he] at hmem
    cases kind with
    | choice => exact (hdraw rfl _ hmem).start hr
    | junction => exact (hsome t (hmem t List.mem_cons_self)).start hr
    | _ => cases hb
  · rw [he] at hmem
    cases kind with
    | choice => exact (hdraw rfl _ hmem).start hr
    | junction =>
      exact (hnone (.ambiguousBranch (m.qualifiedName (.vertex v)) (t :: t' :: rest).length)
        (.ambiguousBranch (m'.qualifiedName (.vertex v)) (t :: t' :: rest).length) rfl).start hr
    | _ => cases hb

end

/-! ## The parts of an evaluation -/

section
variable (h : m.Arena) (hA : m.Acts A) (hV : m.Precinct V) (hJ : Bond m m' c c' A V J)
variable (hK : ∀ j < k, Abides m m' plainly c c' A V J j)
include h hJ hK

include hA hV in
omit hm in
theorem inStep_step (mode : Mode μ) {s : Step μ δ} (hs : m.Inner A V s) :
    InStep J (performStep m (m.compileWith plainly) c k mode s)
      (performStep m' (m.compileWith plainly) c' k mode s) := by
  cases k with
  | zero => exact Tandem.throw rfl fun _ _ hr => hr
  | succ k =>
  have hperform : ∀ mode {l : List (Step μ δ)}, (∀ s ∈ l, m.Inner A V s) →
      InStep J (perform m (m.compileWith plainly) c k mode l) (perform m' (m.compileWith plainly) c' k mode l) :=
    fun mode _ hl => Abides.perform hK mode hl (Nat.le_succ k)
  cases s with
  | announceEnter element => exact hJ.enter element
  | announceLeave element => exact hJ.leave element
  | act cause action => exact hJ.act mode.trigger cause action hs.1
  | record r v => exact hJ.record r v hs.1.1 hs.1.2.1 hs.1.2.2
  | terminate => exact hJ.terminate (hs.2.2 rfl)
  | leaveRegion r =>
    simp only [performStep]
    refine Tandem.inst_bind fun run run' hr => ?_
    obtain ⟨hsame, hcurrent⟩ := hJ.sameCurrent run run' r (hs.2.1 r rfl) hr
    rw [← hsame]
    cases hv : run.inst.current? r with
    | none => exact (Tandem.pure fun _ _ hr => hr).start hr
    | some v =>
      refine Tandem.start (tandem_behavior.bind fun b => Tandem.of_imp fun hb => ?_) hr
      rw [eq_vertexBehavior hb]
      exact hperform _ (inner_leaveVertex h hA hV.hereditary (hcurrent v hv))
  | enterRegion r initial kind =>
    simp only [performStep]
    refine Tandem.inst_bind fun run run' hr => ?_
    obtain ⟨hsame, hcurrent⟩ := hJ.sameCurrent run run' r hs.1.2.1 hr
    rw [← hsame]
    cases hv : (if mode.deep || kind.any fun x => x.isHistory then run.inst.current? r else none).or initial with
    | none => exact (Tandem.pure fun _ _ hr => hr).start hr
    | some v =>
      have hvin : V v := by
        rcases Option.or_eq_some_iff.mp hv with hv | ⟨_, hv⟩
        · split at hv
          · exact hcurrent v hv
          · cases hv
        · exact hs.1.2.1 v (hs.1.2.2 v hv)
      refine Tandem.start (tandem_behavior.bind fun b => Tandem.of_imp fun hb => ?_) hr
      rw [eq_vertexBehavior hb]
      exact (hperform _ fun s hs => (beginning_beginEnterVertex hvin s hs).inner hA).bind fun _ =>
        hperform _ fun s hs => (arriving_endEnterVertex h hV.hereditary hvin s hs).inner h hA
  | traverse t =>
    obtain ⟨record, hrec, _, hsource⟩ := hs.1
    exact (hK k (Nat.lt_succ_self k)).traverse mode t record hrec hsource

omit hm h in
theorem inStep_traverse (mode : Mode μ) {t : TransitionId} {record : Transition μ δ}
    (hrec : m.transition? t = some record) (hsource : V record.source) :
    InStep J (traverse m (m.compileWith plainly) c k mode t) (traverse m' (m.compileWith plainly) c' k mode t) := by
  cases k with
  | zero => exact Tandem.throw rfl fun _ _ hr => hr
  | succ k =>
  simp only [traverse]
  refine ((hK k (Nat.lt_succ_self k)).follow mode.trigger t record hrec hsource).bind fun _ => ?_
  cases mode.nested with
  | true => exact Tandem.pure fun _ _ hr => hr
  | false =>
    have hget : Tandem J (modifyGet fun run => (run.arrived, { run with arrived := [] }) : Eval μ δ σ _)
        (modifyGet fun run => (run.arrived, { run with arrived := [] }) : Eval μ δ τ _)
        (fun arrived run run' => J run run' ∧ ∀ v ∈ arrived, V v) J := by
      intro run run' hr
      obtain ⟨hsame, harrived⟩ := hJ.sameArrived run run' hr
      have hkept := hJ.arrived run run' [] (by simp) hr
      change Alongside _ _ (.ok run.arrived { run with arrived := [] }) (.ok run'.arrived { run' with arrived := [] })
      rw [← hsame]
      exact .ok ⟨hkept, harrived⟩
    exact hget.bind fun arrived => Tandem.of_imp fun harrived =>
      (hK k (Nat.lt_succ_self k)).completeAll arrived harrived

include hA hV in
theorem inStep_follow (trigger : Trigger μ) {t : TransitionId} {record : Transition μ δ}
    (hrec : m.transition? t = some record) (hsource : V record.source) :
    InStep J (follow m (m.compileWith plainly) c k trigger t)
      (follow m' (m.compileWith plainly) c' k trigger t) := by
  cases k with
  | zero => exact Tandem.throw rfl fun _ _ hr => hr
  | succ k =>
  have hroute : (m.compileWith plainly).route? t = some (m.route plainly t) := route?_compileWith (by simp [hrec])
  have hrec' : m'.transition? t = some record := by rw [transition?_of_anonymous hm, hrec]
  simp only [follow, hrec, hrec', hroute]
  refine Tandem.inst_bind fun run run' hr => ?_
  -- What is recorded outside of the precinct may differ, but the steps do not depend on it.
  rw [← steps_congr h hV hrec hsource fun r hmem => (hJ.sameCurrent run run' r hmem hr).1]
  have hnote : Tandem (fun start start' => start = run ∧ start' = run') (note (.fired t trigger run.inst))
      (note (.fired t trigger run'.inst)) (fun _ => J) J := by
    rintro _ _ ⟨rfl, rfl⟩
    exact .ok (hJ.fired _ _ t record trigger hrec hsource hr)
  refine hnote.bind fun _ => ?_
  refine (Abides.perform hK _ (inner_route h hA hV hrec hsource run.inst) (Nat.le_succ k)).bind fun _ => ?_
  cases hu : record.target with
  | none => exact Tandem.pure fun _ _ hr => hr
  | some u =>
    have hvu := hV.target hrec hsource hu
    refine tandem_vertex_bind hm fun reached reached' hreached hform houtgoing => ?_
    rw [hform, houtgoing]
    cases hf : reached.form with
    | state content =>
      refine Tandem.modify fun run run' hr => ?_
      obtain ⟨hsame, harrived⟩ := hJ.sameArrived run run' hr
      rw [← hsame]
      refine hJ.arrived run run' _ (fun v hv => ?_) hr
      rcases List.mem_append.mp hv with hv | hv
      · exact harrived v hv
      · rw [List.mem_singleton.mp hv]
        exact hvu
    | pseudo kind =>
      cases hb : kind.isBranch with
      | false =>
        simp only [hb]
        exact Tandem.pure fun _ _ hr => hr
      | true =>
        have houtgoing : reached.outgoing = m.outgoing u := by simp [outgoing, hreached]
        simp only [hb, ite_true]
        rw [houtgoing]
        refine (tandem_selectBranch hm h hJ hvu trigger hreached hf hb).bind fun next => ?_
        cases next with
        | none => exact Tandem.pure fun _ _ hr => hr.1
        | some next =>
          refine Tandem.of_imp fun hnext => ?_
          obtain ⟨record', hrec', hsource'⟩ := h.source_of_mem_outgoing (hnext next rfl)
          exact (hK k (Nat.lt_succ_self k)).follow trigger next record' hrec' (hsource' ▸ hvu)

omit hm h hJ in
theorem inStep_completeAll {l : List VertexId} (hl : ∀ v ∈ l, V v) :
    InStep J (completeAll m (m.compileWith plainly) c k l) (completeAll m' (m.compileWith plainly) c' k l) := by
  cases l with
  | nil => cases k <;> exact Tandem.pure fun _ _ hr => hr
  | cons v rest =>
    cases k with
    | zero => exact Tandem.throw rfl fun _ _ hr => hr
    | succ k =>
      simp only [completeAll]
      exact ((hK k (Nat.lt_succ_self k)).complete v (hl v List.mem_cons_self)).bind fun _ =>
        (hK k (Nat.lt_succ_self k)).completeAll rest fun w hw => hl w (List.mem_cons_of_mem v hw)

include hV in
theorem inStep_complete {v : VertexId} (hv : V v) :
    InStep J (complete m (m.compileWith plainly) c k v) (complete m' (m.compileWith plainly) c' k v) := by
  cases k with
  | zero => exact Tandem.throw rfl fun _ _ hr => hr
  | succ k =>
  simp only [complete]
  refine Tandem.inst_bind fun run run' hr => ?_
  rw [← hJ.sameTerminated run run' hr]
  cases run.inst.terminated with
  | true => exact (Tandem.pure fun _ _ hr => hr).start hr
  | false =>
    refine Tandem.start ((inStep_isActive hm hJ hv).bind fun active => ?_) hr
    cases active with
    | false => exact Tandem.pure fun _ _ hr => hr
    | true =>
      refine (inStep_isComplete hm h hV hJ hv).bind fun done => ?_
      cases done with
      | false => exact Tandem.pure fun _ _ hr => hr
      | true => exact ((hK k (Nat.lt_succ_self k)).offer _ v hv).bind fun _ => Tandem.pure fun _ _ hr => hr

omit h in
theorem inStep_offerBeneath (trigger : Trigger μ) {v : VertexId} (hv : V v) {rs : List RegionId}
    (hrs : ∀ r ∈ rs, ∀ w, m.parent? w = some r → V w) :
    InStep J (offerBeneath m (m.compileWith plainly) c k trigger v rs)
      (offerBeneath m' (m.compileWith plainly) c' k trigger v rs) := by
  cases rs with
  | nil => cases k <;> exact Tandem.pure fun _ _ hr => hr
  | cons r rest =>
    cases k with
    | zero => exact Tandem.throw rfl fun _ _ hr => hr
    | succ k =>
    have hrest : InStep J (offerBeneath m (m.compileWith plainly) c k trigger v rest)
        (offerBeneath m' (m.compileWith plainly) c' k trigger v rest) :=
      (hK k (Nat.lt_succ_self k)).offerBeneath trigger v rest hv fun q hq => hrs q (List.mem_cons_of_mem r hq)
    simp only [offerBeneath]
    refine Tandem.inst_bind fun run run' hr => ?_
    obtain ⟨hsame, hcurrent⟩ := hJ.sameCurrent run run' r (hrs r List.mem_cons_self) hr
    rw [← hsame]
    cases hw : run.inst.current? r with
    | none => exact hrest.start hr
    | some w =>
      refine Tandem.start
        (((hK k (Nat.lt_succ_self k)).offer trigger w (hcurrent w hw)).bind fun consumed => ?_) hr
      cases consumed with
      | false => exact hrest
      | true =>
        refine (inStep_isActive hm hJ hv).bind fun active => ?_
        cases active with
        | false => exact Tandem.pure fun _ _ hr => hr
        | true =>
          refine Tandem.inst_bind fun run run' hr => ?_
          rw [← hJ.sameTerminated run run' hr]
          cases run.inst.terminated with
          | true => exact (Tandem.pure fun _ _ hr => hr).start hr
          | false => exact Tandem.start (hrest.bind fun _ => Tandem.pure fun _ _ hr => hr) hr

include hV in
theorem inStep_offer (trigger : Trigger μ) {v : VertexId} (hv : V v) :
    InStep J (offer m (m.compileWith plainly) c k trigger v) (offer m' (m.compileWith plainly) c' k trigger v) := by
  cases k with
  | zero => exact Tandem.throw rfl fun _ _ hr => hr
  | succ k =>
  simp only [offer]
  refine tandem_vertex_bind hm fun record record' hrec hform houtgoing => ?_
  rw [hform, houtgoing]
  cases hf : record.form with
  | pseudo kind => exact Tandem.pure fun _ _ hr => hr
  | state content =>
    have hregions : content.regions = m.regionsOf v := by simp [regionsOf, hrec, Vertex.regions, hf]
    have hout : record.outgoing = m.outgoing v := by simp [outgoing, hrec]
    refine Tandem.inst_bind fun run run' hr => ?_
    rw [← hJ.sameTerminated run run' hr]
    cases run.inst.terminated with
    | true => exact (Tandem.pure fun _ _ hr => hr).start hr
    | false =>
      refine Tandem.start ((hJ.offered v trigger).bind fun _ => ?_) hr
      rw [hregions, hout]
      refine Tandem.ite_bind (R := fun _ => J) (fun _ => Tandem.pure fun _ _ hr => hr) (fun _ => ?_) fun consumed => ?_
      · exact (hK k (Nat.lt_succ_self k)).offerBeneath trigger v _ hv fun r hr =>
          Hereditary.members h hV.hereditary hv hr
      · cases consumed with
        | true => exact ((hK k (Nat.lt_succ_self k)).complete v hv).bind fun _ => Tandem.pure fun _ _ hr => hr
        | false =>
          refine Tandem.inst_bind fun run run' hr => ?_
          rw [enabled_congr hm h hJ hv trigger hr]
          rcases he : enabled m v (m.outgoing v) trigger run.inst with _ | ⟨t, _ | ⟨t', rest⟩⟩
          · exact (Tandem.pure fun _ _ hr => hr).start hr
          · obtain ⟨record', hrec', hsource, _⟩ := source_of_enabled h (he ▸ List.mem_singleton_self t)
            exact Tandem.start (((hK k (Nat.lt_succ_self k)).traverse _ t record' hrec' (hsource ▸ hv)).bind fun _ =>
              Tandem.pure fun _ _ hr => hr) hr
          · have hreport := hJ.report
              (.ambiguousTransition (m.qualifiedName (.vertex v)) (t :: t' :: rest).length)
              (.ambiguousTransition (m'.qualifiedName (.vertex v)) (t :: t' :: rest).length) rfl
            exact Tandem.start (hreport.bind fun _ => Tandem.pure fun _ _ hr => hr) hr

end

/-- Both evaluations go through the same parts, for as long as they stay in the precinct. -/
theorem abides (h : m.Arena) (hA : m.Acts A) (hV : m.Precinct V) (hJ : Bond m m' c c' A V J) (k : Nat) :
    Abides m m' plainly c c' A V J k := by
  induction k using Nat.strongRecOn with
  | ind k ih =>
  exact {
    step := fun mode s hs => inStep_step h hA hV hJ ih mode hs
    traverse := fun mode t record hrec hsource => inStep_traverse hJ ih mode hrec hsource
    follow := fun trigger t record hrec hsource => inStep_follow hm h hA hV hJ ih trigger hrec hsource
    completeAll := fun l hl => inStep_completeAll ih hl
    complete := fun v hv => inStep_complete hm h hV hJ ih hv
    offer := fun trigger v hv => inStep_offer hm h hV hJ ih trigger hv
    offerBeneath := fun trigger v rs hv hrs => inStep_offerBeneath hm hJ ih trigger hv hrs }

end

end Eval

end Statechart
