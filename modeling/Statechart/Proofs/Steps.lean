import Statechart.Proofs.Sequences

/-!
# What programs are made of

The program of a model has one entry for each vertex, region and transition, and each of its steps speaks of elements
of the model.
-/

namespace Statechart

variable {μ δ : Type}

namespace Model

variable {m : Model μ δ} {plainly : RegionId → Bool}

/-! ## Entries of a program -/

theorem vertex?_compileWith {v : VertexId} (hv : (m.vertex? v).isSome) :
    (m.compileWith plainly).vertex? v = some (m.vertexBehavior plainly v) := by
  have hlt := vertex?_isSome_iff.mp hv
  simp [compileWith, Program.vertex?, vertexIds, hlt]

theorem vertex?_compileWith_of_none {v : VertexId} (hv : m.vertex? v = none) :
    (m.compileWith plainly).vertex? v = none := by
  have hlt : ¬ v.index < m.vertices.size := fun hlt => absurd (vertex?_isSome_iff.mpr hlt) (by simp [hv])
  simp [compileWith, Program.vertex?, vertexIds, hlt]

theorem route?_compileWith {t : TransitionId} (ht : (m.transition? t).isSome) :
    (m.compileWith plainly).route? t = some (m.route plainly t) := by
  have hlt : t.index < m.transitions.size := by simpa [transition?] using ht
  simp [compileWith, Program.route?, transitionIds, hlt]

/-! ## Sound steps -/

/-- The step speaks of elements of the model, its action satisfies `A`, and it begins to enter, records and traverses
from nothing but vertices in `V`. -/
def Within (m : Model μ δ) (A : Action μ δ → Prop) (V : VertexId → Prop) : Step μ δ → Prop
  | .announceEnter (.vertex v) => V v
  | .act _ action => A action
  | .record r v => m.parent? v = some r ∧ m.isState v = true ∧ V v
  | .leaveRegion r => (m.region? r).isSome
  | .enterRegion r initial _ =>
    (m.region? r).isSome ∧ (∀ v, m.parent? v = some r → V v) ∧ ∀ v, initial = some v → m.parent? v = some r
  | .traverse t => ∃ record, m.transition? t = some record ∧ m.isState record.source = false ∧ V record.source
  | _ => True

section
variable {A : Action μ δ → Prop} {V : VertexId → Prop} {s : Step μ δ}

theorem Beginning.within (hA : m.Acts A) (hs : m.Beginning V s) : m.Within A V s := by
  cases hs with
  | announce hv => exact hv
  | act ha => exact hA.entryActions _ ha
  | record hv hs hp => exact ⟨hp, hs, hv⟩
  | terminate => trivial

theorem within_beginEnterVertex (hA : m.Acts A) {v : VertexId} (hv : V v) : ∀ s ∈ m.beginEnterVertex v, m.Within A V s :=
  fun s hs => (beginning_beginEnterVertex hv s hs).within hA

theorem within_effectsOf (hA : m.Acts A) (t : TransitionId) : ∀ s ∈ m.effectsOf t, m.Within A V s := fun s hs => by
  obtain ⟨record, hrec, a, ha, rfl⟩ := exists_effect_of_mem hs
  exact hA.effect hrec a ha

section
variable (h : m.Arena) (hA : m.Acts A)
include h hA

theorem Arriving.within (hs : m.Arriving V s) : m.Within A V s := by
  cases hs with
  | begin hs => exact hs.within hA
  | region => trivial
  | enter hr hV => exact ⟨hr, hV, fun _ hv => parent?_of_head? h hv⟩
  | traverse hv hi ht =>
    obtain ⟨record, hrec, rfl⟩ := h.source_of_mem_outgoing ht
    exact ⟨record, hrec, isState_eq_false_of_isInitial hi, hv⟩
  | act hrec ha => exact hA.effect hrec _ ha

theorem Departing.within {v : VertexId} (hs : m.Departing v s) : m.Within A V s := by
  cases hs with
  | leave hr => exact region?_isSome_of_mem h hr
  | region => trivial
  | vertex => trivial
  | act ha => exact hA.exitActions _ ha

theorem Moving.within (hs : m.Moving V s) : m.Within A V s :=
  hs.elim (fun ⟨_, hs⟩ => hs.within h hA) (·.within h hA)

theorem within_leaveVertex (v : VertexId) : ∀ s ∈ m.leaveVertex v, m.Within A V s := fun s hs =>
  (departing_leaveVertex v s hs).within h hA

theorem within_endEnterVertex (hV : m.Hereditary V) {v : VertexId} (hv : V v) :
    ∀ s ∈ m.endEnterVertex plainly v, m.Within A V s := fun s hs => (arriving_endEnterVertex h hV hv s hs).within h hA

theorem within_arrival (hV : m.Hereditary V) (t : TransitionId) {l : List VertexId} {u : VertexId} (hl : ∀ v ∈ l, V v)
    (hu : V u) : ∀ s ∈ m.arrival plainly t l u, m.Within A V s := fun s hs =>
  (arriving_arrival h hV t hl hu s hs).within h hA

theorem within_onInitialise : ∀ s ∈ (m.compileWith plainly).onInitialise, m.Within A (fun _ => True) s := fun s hs =>
  (arriving_onInitialise h s hs).within h hA

end

end

/-! ## Entering regions by default -/

theorem isInitial_of_head? {r : RegionId} {v : VertexId} (hv : m.head? r = some v) : m.isInitial v = true :=
  List.find?_some hv

theorem isUnderDeepHistory_of_owner (h : m.Arena) {v : VertexId} {r q : RegionId} (hv : m.parent? v = some r)
    (hq : m.owner? q = some v)
    (hr : m.isUnderDeepHistory r = true ∨ (m.headKind? r == some .deepHistory) = true) :
    m.isUnderDeepHistory q = true := by
  obtain ⟨o, ho⟩ := h.owner?_of_parent? hv
  obtain ⟨region, hreg, rfl⟩ := owner?_eq_some.mp ho
  obtain ⟨region', hreg', rfl⟩ := owner?_eq_some.mp hq
  simp only [isUnderDeepHistory, hreg, hreg', Option.any_some, path_eq h hv ho, List.any_append, Bool.or_eq_true] at hr ⊢
  refine hr.imp id fun hr => ?_
  simpa using hr

def defaultTarget? (m : Model μ δ) (r : RegionId) : Option VertexId :=
  match (m.verticesOf r).filter m.isInitial with
  | [v] =>
    match m.outgoing v with
    | [t] => (m.transition? t).bind (·.target)
    | _ => none
  | _ => none

/-- Every region is entered by default by way of one initial vertex, which leads to a state beneath the region. -/
def EntersStates (m : Model μ δ) : Prop :=
  ∀ r ∈ m.regionIds, (m.defaultTarget? r).any (fun u => m.isState u && decide (m.Above r u)) = true

instance decidableEntersStates (m : Model μ δ) : Decidable m.EntersStates :=
  inferInstanceAs (Decidable (∀ r ∈ m.regionIds, _ = true))

def HasTarget (m : Model μ δ) (t : TransitionId) : Bool := (m.transition? t).any fun record => record.target.isSome

theorem defaultTarget?_eq_some {r : RegionId} {u : VertexId} (hu : m.defaultTarget? r = some u) :
    ∃ v t record, (m.verticesOf r).filter m.isInitial = [v] ∧ m.outgoing v = [t] ∧ m.transition? t = some record ∧
      record.target = some u := by
  unfold defaultTarget? at hu
  split at hu
  · rename_i v hv
    split at hu
    · rename_i t ht
      obtain ⟨record, hrec, htarget⟩ := Option.bind_eq_some_iff.mp hu
      exact ⟨v, t, record, hv, ht, hrec, htarget⟩
    · cases hu
  · cases hu

theorem EntersStates.exists_target (h : m.Arena) (hd : m.EntersStates) {r : RegionId} (hr : (m.region? r).isSome) :
    ∃ v t record u, m.parent? v = some r ∧ m.isInitial v = true ∧
      (∀ w, m.parent? w = some r → m.isInitial w = true → w = v) ∧ m.outgoing v = [t] ∧
      m.transition? t = some record ∧ record.target = some u ∧ m.isState u = true ∧ m.Above r u := by
  have hmem : r ∈ m.regionIds := by
    have : r.index < m.regions.size := by simpa [region?] using hr
    cases r; simpa [regionIds] using this
  obtain ⟨u, hu, hstate⟩ := (Option.any_eq_true _ _).mp (hd r hmem)
  obtain ⟨v, t, record, hv, ht, hrec, htarget⟩ := defaultTarget?_eq_some hu
  simp only [Bool.and_eq_true, decide_eq_true_eq] at hstate
  have hfilter : ∀ w, w ∈ (m.verticesOf r).filter m.isInitial ↔ w = v := by simp [hv]
  have hvf := List.mem_filter.mp ((hfilter v).mpr rfl)
  refine ⟨v, t, record, u, h.mem_verticesOf.mp hvf.1, hvf.2, fun w hw hi => ?_, ht, hrec, htarget, hstate⟩
  exact (hfilter w).mp (List.mem_filter.mpr ⟨h.mem_verticesOf.mpr hw, hi⟩)

/-! ## Routes -/

/-- `t` leads to `u`, which is beneath its source, without leaving the source. -/
def IsLocal (m : Model μ δ) (t : Transition μ δ) (u : VertexId) : Prop :=
  t.kind = .withinSource ∧ t.source ≠ u ∧ m.isAncestor t.source u = true

theorem not_isLocal_of_not_isState (h : m.Arena) {t : Transition μ δ} {u : VertexId} (hs : m.isState t.source = false)
    (hu : (m.vertex? u).isSome) : ¬ m.IsLocal t u := by
  rintro ⟨_, hne, hanc⟩
  have := isState_of_mem_chain h u hu ((isAncestor_iff h hu).mp hanc) hne
  rw [hs] at this; cases this

section
variable {t : TransitionId} {record : Transition μ δ} {u : VertexId} (hrec : m.transition? t = some record)
include hrec

theorem steps_internal (hu : record.target = none) (i : Instance δ) :
    (m.route plainly t).steps i = m.effectsOf t := by
  simp [route, hrec, hu, Route.steps]

theorem steps_direct (hu : record.target = some u) (hl : ¬ m.IsLocal record u) (i : Instance δ) :
    ∃ d e rest, (m.chain record.source)[m.divergence (m.chain record.source) (m.chain u)]? = some d ∧
      (m.chain u).drop (m.divergence (m.chain record.source) (m.chain u)) = e :: rest ∧ m.parent? d = m.parent? e ∧
      (m.route plainly t).steps i = m.leaveVertex d ++ m.arrival plainly t (e :: rest) u := by
  obtain ⟨hd, he⟩ := divergence_lt (m := m) record.source u
  refine ⟨_, _, _, List.getElem?_eq_getElem hd, List.drop_eq_getElem_cons he,
    divergence_parent (List.getElem?_eq_getElem hd) (List.getElem?_eq_getElem he), ?_⟩
  have hif : ¬ (record.kind = .withinSource ∧ record.source ≠ u ∧ m.isAncestor record.source u = true) := hl
  rw [← List.drop_eq_getElem_cons he]
  simp [route, hrec, hu, hif, Route.steps, List.getElem?_eq_getElem hd]

theorem steps_initial (h : m.Arena) {q : RegionId} (hp : m.parent? record.source = some q)
    (hs : m.isState record.source = false) (hu : record.target = some u) (hstate : m.isState u = true)
    (ha : m.Above q u) (i : Instance δ) : ∃ w rest, m.parent? w = some q ∧ m.Descent (w :: rest) u ∧
      (m.route plainly t).steps i = m.leaveVertex record.source ++ m.arrival plainly t (w :: rest) u := by
  have huknown := vertex?_isSome_of_isState hstate
  have hlocal := not_isLocal_of_not_isState h hs huknown
  obtain ⟨d, e, rest, hd, he, _, hsteps⟩ := @steps_direct _ _ m plainly t record u hrec hu hlocal i
  obtain ⟨o, x, rest', ho, hx, hchain⟩ := exists_chain_of_above h u huknown ha
  have hsource := chain_eq h hp ho
  have hne : record.source ≠ x := by
    rintro heq
    have hmem : record.source ∈ m.chain u := by rw [hchain, heq]; simp
    have := isState_of_mem_chain h u huknown hmem fun heq' => by rw [heq', hstate] at hs; cases hs
    rw [hs] at this; cases this
  -- The chains share the way to the owner `o` of the region and part at its vertices, of which one is the pseudo state.
  have hshared : sharedLength (m.chain record.source) (m.chain u) = (m.chain o).length := by
    rw [hsource, hchain, sharedLength_append]; simp [sharedLength, hne]
  have hdivergence : m.divergence (m.chain record.source) (m.chain u) = (m.chain o).length := by
    rcases divergence_cases (m := m) (m.chain record.source) (m.chain u) with ⟨_, _, _, _, _, heq⟩ | ⟨hparents, _⟩
    · exact heq.trans hshared
    · refine absurd (hp.trans hx.symm) (hparents _ _ ?_ ?_)
      · rw [hshared, hsource]; simp
      · rw [hshared, hchain]; simp
  rw [hdivergence, hsource] at hd
  rw [hdivergence, hchain, List.drop_left] at he
  simp only [List.getElem?_append_right, Nat.le_refl, Nat.sub_self, List.getElem?_cons_zero, Option.some.injEq] at hd
  cases he; subst hd
  refine ⟨e, rest, hx, ?_, hsteps⟩
  have hdescent := descent_chain h u huknown
  rw [hchain] at hdescent
  exact hdescent.suffix (by simp)

omit hrec in
theorem exists_detour {l : List VertexId} {i : Instance δ} {d : Detour μ δ}
    (hd : ((m.detours plainly t u l).find? fun d => i.current? d.region != some d.vertex).or
      (m.detours plainly t u l).getLast? = some d) :
    ∃ l' rest, l = l' ++ d.vertex :: rest ∧ m.parent? d.vertex = some d.region ∧
      d.steps = leaveRegion d.region ++ m.arrival plainly t (d.vertex :: rest) u ∧
      ∀ w ∈ l', ∀ q, m.parent? w = some q → i.current? q = some w := by
  induction l with
  | nil => simp [detours] at hd
  | cons v rest ih =>
    cases hv : m.parent? v with
    | none =>
      simp only [detours, hv] at hd
      obtain ⟨l', rest', rfl, hp, hs, hall⟩ := ih hd
      refine ⟨v :: l', rest', rfl, hp, hs, fun w hw q hq => ?_⟩
      rcases List.mem_cons.mp hw with rfl | hw
      · rw [hv] at hq; cases hq
      · exact hall w hw q hq
    | some r =>
      simp only [detours, hv, List.find?_cons] at hd
      -- The detour from `v` is passed over where `v` is recorded and another one comes after it.
      by_cases hr : i.current? r = some v
      · cases hds : m.detours plainly t u rest with
        | nil =>
          simp only [hr, bne_self_eq_false, hds, List.find?_nil, Option.none_or, List.getLast?_singleton,
            Option.some.injEq] at hd
          subst hd
          exact ⟨[], rest, rfl, hv, rfl, by simp⟩
        | cons d' ds =>
          simp only [hr, bne_self_eq_false, hds, List.getLast?_cons_cons] at hd
          rw [hds] at ih
          obtain ⟨l', rest', rfl, hp, hs, hall⟩ := ih hd
          refine ⟨v :: l', rest', rfl, hp, hs, fun w hw q hq => ?_⟩
          rcases List.mem_cons.mp hw with rfl | hw
          · rw [hv] at hq; cases hq; exact hr
          · exact hall w hw q hq
      · have hne : (i.current? r != some v) = true := by simp [hr]
        simp only [hne, Option.some_or, Option.some.injEq] at hd
        subst hd
        exact ⟨[], rest, rfl, hv, rfl, by simp⟩

omit hrec in
theorem detours_ne_nil {l : List VertexId} {v : VertexId} (hv : v ∈ l) (hp : (m.parent? v).isSome) :
    m.detours plainly t u l ≠ [] := by
  induction l with
  | nil => cases hv
  | cons w rest ih =>
    simp only [detours]
    cases hw : m.parent? w with
    | some r => exact List.cons_ne_nil _ _
    | none =>
      rcases List.mem_cons.mp hv with rfl | hv
      · rw [hw] at hp; cases hp
      · exact ih hv

omit hrec in
theorem mem_below (h : m.Arena) {s : VertexId} (hknown : (m.vertex? u).isSome) (hs : s ∈ m.chain u) (hne : s ≠ u) :
    u ∈ below s (m.chain u) ∧ (m.parent? u).isSome := by
  rcases h.root_or_owner hknown with rfl | ⟨r, o, hp, ho, _⟩
  · rw [chain_root h, List.mem_singleton] at hs; exact absurd hs hne
  · refine ⟨?_, by rw [hp]; rfl⟩
    have hsplit := chain_append_below h hknown hs
    have hlast : (m.chain u).getLast? = some u := by rw [chain_eq h hp ho]; simp
    cases hbelow : below s (m.chain u) with
    | nil =>
      rw [hbelow, List.append_nil] at hsplit
      have hself : (m.chain s).getLast? = some s := by
        rcases h.root_or_owner (vertex?_isSome_of_mem_chain h u hknown hs) with rfl | ⟨r', o', hp', ho', _⟩
        · rw [chain_root h]; rfl
        · rw [chain_eq h hp' ho']; simp
      rw [hsplit, hself] at hlast
      exact absurd (Option.some.inj hlast) hne
    | cons w rest =>
      rw [hsplit, hbelow, List.getLast?_append] at hlast
      exact List.mem_of_getLast? (by simpa [List.getLast?_cons] using hlast)

theorem steps_local (h : m.Arena) (hu : record.target = some u) (hl : m.IsLocal record u) (i : Instance δ) :
    ∃ l' v rest r, below record.source (m.chain u) = l' ++ v :: rest ∧
      m.parent? v = some r ∧ (m.route plainly t).steps i = leaveRegion r ++ m.arrival plainly t (v :: rest) u ∧
      ∀ w ∈ l', ∀ q, m.parent? w = some q → i.current? q = some w := by
  have hif : record.kind = .withinSource ∧ record.source ≠ u ∧ m.isAncestor record.source u = true := hl
  have hroute : m.route plainly t = .detours (m.detours plainly t u (below record.source (m.chain u))) := by
    simp [route, hrec, hu, hif]
  have hknown := h.target_isSome hrec hu
  obtain ⟨hmem, hp⟩ := mem_below h hknown ((isAncestor_iff h hknown).mp hl.2.2) hl.2.1
  rw [hroute]
  simp only [Route.steps]
  cases hd : ((m.detours plainly t u (below record.source (m.chain u))).find?
      fun d => i.current? d.region != some d.vertex).or
      (m.detours plainly t u (below record.source (m.chain u))).getLast? with
  | none =>
    have hlast := List.getLast?_eq_none_iff.mp (Option.or_eq_none_iff.mp hd).2
    exact absurd hlast (detours_ne_nil hmem hp)
  | some d =>
    obtain ⟨l', rest, hsplit, hp, hs, hall⟩ := exists_detour hd
    exact ⟨l', d.vertex, rest, d.region, hsplit, hp, hs, hall⟩

omit hrec in
theorem exists_landing (h : m.Arena) (hl : m.IsLocal record u) (hknown : (m.vertex? u).isSome) {i : Instance δ}
    (ha : m.isActive i record.source = true) {l rest : List VertexId} {v : VertexId} {r : RegionId}
    (hbelow : below record.source (m.chain u) = l ++ v :: rest) (hp : m.parent? v = some r)
    (hrecorded : ∀ w ∈ l, ∀ q, m.parent? w = some q → i.current? q = some w) :
    ∃ o, m.owner? r = some o ∧ m.isActive i o = true ∧ m.Descent (v :: rest) u := by
  obtain ⟨o, ho⟩ := h.owner?_of_parent? hp
  obtain ⟨l', hl'⟩ := exists_append_below ((isAncestor_iff h hknown).mp hl.2.2)
  rw [hbelow] at hl'
  have hdescent : m.Descent (record.source :: (l ++ v :: rest)) u := descent_of_append h hknown hl'
  refine ⟨o, ho, isActive_of_recorded h hdescent ha hrecorded hp ho, ?_⟩
  rw [← List.cons_append] at hdescent
  exact hdescent.suffix (by simp)

/-- `e` is where a transition from `v` can begin to enter: beneath `v`, or in the region of a vertex on its chain. -/
def Leads (m : Model μ δ) (v e : VertexId) : Prop :=
  (v ≠ e ∧ v ∈ m.chain e) ∨ ∃ d ∈ m.chain v, m.parent? d = m.parent? e

/-- Once it has left some vertex or a region of it, a transition arrives by the end of the chain of its target. -/
theorem steps_cases (h : m.Arena) (hu : record.target = some u) (i : Instance δ) : ∃ before d e rest,
    (m.route plainly t).steps i = before ++ m.arrival plainly t (e :: rest) u ∧
      (∀ s ∈ before, m.Departing d s) ∧ m.Descent (e :: rest) u ∧ m.Leads record.source e := by
  have hknown := h.target_isSome hrec hu
  by_cases hl : m.IsLocal record u
  · obtain ⟨l', e, rest, r, hbelow, hp, hsteps, _⟩ := @steps_local _ _ m plainly t record u hrec h hu hl i
    have hsource := (isAncestor_iff h hknown).mp hl.2.2
    have hchain := chain_append_below h hknown hsource
    rw [hbelow, ← List.append_assoc] at hchain
    obtain ⟨o, ho⟩ := h.owner?_of_parent? hp
    refine ⟨leaveRegion r, o, e, rest, hsteps, departing_leaveRegion (h.mem_regionsOf.mpr ho),
      descent_of_append h hknown hchain, Or.inl ?_⟩
    have hself := mem_chain_self h _ (h.source_isSome hrec)
    have hstart := chain_of_append h hknown hchain
    rw [List.append_assoc] at hstart
    refine ⟨fun heq => ?_, by rw [hstart]; exact List.mem_append_left _ hself⟩
    have := congrArg List.length hstart
    rw [← heq] at this
    simp at this
  · obtain ⟨d, e, rest, hd, hdrop, hparent, hsteps⟩ := @steps_direct _ _ m plainly t record u hrec hu hl i
    exact ⟨m.leaveVertex d, d, e, rest, hsteps, departing_leaveVertex d, descent_of_drop h hknown hdrop,
      Or.inr ⟨d, List.mem_of_getElem? hd, hparent⟩⟩

end

theorem moving_route (h : m.Arena) {V : VertexId → Prop} (hV : ∀ v, V v) (t : TransitionId) (i : Instance δ) :
    ∀ s ∈ (m.route plainly t).steps i, m.Moving V s := by
  intro s hs
  cases hrec : m.transition? t with
  | none => simp [route, hrec, Route.steps] at hs
  | some record =>
    cases hu : record.target with
    | none =>
      rw [steps_internal hrec hu] at hs
      exact Or.inr (arriving_effectsOf t s hs)
    | some u =>
      obtain ⟨before, d, e, rest, hsteps, hbefore, _⟩ := @steps_cases _ _ m plainly t record u hrec h hu i
      rw [hsteps] at hs
      rcases List.mem_append.mp hs with hs | hs
      · exact Or.inl ⟨d, hbefore s hs⟩
      · exact Or.inr (arriving_arrival h (fun _ _ _ => hV _) t (fun v _ => hV v) (hV u) s hs)

theorem within_route (h : m.Arena) {A : Action μ δ → Prop} (hA : m.Acts A) {V : VertexId → Prop} (hV : ∀ v, V v)
    (t : TransitionId) (i : Instance δ) : ∀ s ∈ (m.route plainly t).steps i, m.Within A V s := fun s hs =>
  (moving_route h hV t i s hs).within h hA

end Model

end Statechart
