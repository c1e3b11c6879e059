import Mathlib.Logic.ExistsUnique
import Statechart.Proofs.Pacing
import Statechart.Proofs.Prolonging

/-!
# Branches on the way

Where a transition leads to a choice or a junction, the guards of the ways on are looked at then and there, on the
instance as the steps so far have left it, and one of the ways is followed, if any. A transition comes to what its
steps, its branches and the transitions that it goes on by come to, and to nothing else.
-/

namespace Statechart

variable {μ δ σ : Type}

namespace Model

variable {m : Model μ δ} {trigger : Trigger μ} {i : Instance δ} {v : VertexId} {kind : PseudoKind}

/-- The transitions out of `v` whose guards hold, as they were declared; an else transition is none of them. -/
def ways (m : Model μ δ) (trigger : Trigger μ) (i : Instance δ) (v : VertexId) : List TransitionId :=
  (m.outgoing v).filter fun t =>
    (m.transition? t).any fun record => !record.isElse && record.guard.check v trigger i

inductive Stuck (m : Model μ δ) (trigger : Trigger μ) (i : Instance δ) (v : VertexId) : MachineError → Prop
  | noBranch (hways : m.ways trigger i v = []) (helse : ∀ t ∈ m.outgoing v, m.isElse t = false) :
      Stuck m trigger i v (.noBranch (m.qualifiedName (.vertex v)))
  | ambiguous (hkind : m.kind? v = some .junction) (hways : 2 ≤ (m.ways trigger i v).length) :
      Stuck m trigger i v (.ambiguousBranch (m.qualifiedName (.vertex v)) (m.ways trigger i v).length)

theorem isElse_of_check {guard : Guard μ δ} (hg : guard.check v trigger i = true) : guard.isElse = false := by
  cases guard <;> first | rfl | cases hg

theorem ways_eq_enabled : m.ways trigger i v = Eval.enabled m v (m.outgoing v) trigger i := by
  refine List.filter_congr fun t _ => ?_
  cases m.transition? t with
  | none => rfl
  | some record =>
    simp only [Option.any_some, Transition.isElse]
    cases hg : record.guard.check v trigger i with
    | false => simp
    | true => simp [isElse_of_check hg]

theorem isBranch_iff : m.isBranch v = true ↔ ∃ kind, m.kind? v = some kind ∧ kind.isBranch = true := by
  unfold isBranch kind?
  cases m.vertex? v <;> simp [Option.any_eq_true]

theorem transition?_isSome_of_route? {plainly : RegionId → Bool} {t : TransitionId} {route : Route μ δ}
    (hroute : (m.compileWith plainly).route? t = some route) : (m.transition? t).isSome := by
  obtain ⟨hlt, _⟩ := Array.getElem?_eq_some_iff.mp hroute
  simpa [compileWith, transitionIds, transition?] using hlt

end Model

namespace Eval

open Model

variable {m : Model μ δ} {p : Program μ δ} {c : Context σ} {trigger : Trigger μ} {v u : VertexId} {kind : PseudoKind}
variable {run run' mid mid' : Run μ δ σ} {t next : TransitionId} {record : Transition μ δ}

/-! ## Which way is taken -/

/-- What a branch comes to: the way to go on by, none where a report passes the sink, or a halt where it does not. -/
inductive Selects (m : Model μ δ) (c : Context σ) (trigger : Trigger μ) (v : VertexId) (run : Run μ δ σ) :
    EStateM.Result Halt (Run μ δ σ) (Option TransitionId) → Prop
  | only {t : TransitionId} (hkind : m.kind? v = some .junction) (hways : m.ways trigger run.inst v = [t]) :
      Selects m c trigger v run (.ok (some t) run)
  | drawn {t : TransitionId} {value : Nat} {s : σ} (hkind : m.kind? v = some .choice)
      (hdraw : c.random (m.ways trigger run.inst v).length run.outside = (value, s))
      (ht : (m.ways trigger run.inst v)[value % (m.ways trigger run.inst v).length]? = some t) :
      Selects m c trigger v run
        (.ok (some t) { run.note (.drew (m.ways trigger run.inst v).length value) with outside := s })
  | otherwise {t : TransitionId} (hways : m.ways trigger run.inst v = [])
      (ht : (m.outgoing v).find? m.isElse = some t) : Selects m c trigger v run (.ok (some t) run)
  | passed {error : MachineError} {s : σ} (hstuck : m.Stuck trigger run.inst v error)
      (hsink : c.tolerate error run.outside = (true, s)) :
      Selects m c trigger v run (.ok none { run.note (.reported error) with outside := s })
  | refused {error : MachineError} {s : σ} (hstuck : m.Stuck trigger run.inst v error)
      (hsink : c.tolerate error run.outside = (false, s)) :
      Selects m c trigger v run (.error (.refused error) { run.note (.reported error) with outside := s })

section
variable (hkind : m.kind? v = some kind) (hb : kind.isBranch = true)

theorem selectBranch_only {t : TransitionId} (hways : m.ways trigger run.inst v = [t]) :
    selectBranch m c v .junction (m.outgoing v) trigger run = .ok (some t) run := by
  unfold selectBranch
  rw [inst_bind_apply, ← ways_eq_enabled, hways]
  rfl

theorem selectBranch_otherwise {t : TransitionId} (hways : m.ways trigger run.inst v = [])
    (ht : (m.outgoing v).find? m.isElse = some t) :
    selectBranch m c v kind (m.outgoing v) trigger run = .ok (some t) run := by
  unfold selectBranch
  rw [inst_bind_apply, ← ways_eq_enabled, hways]
  simp only [ht]
  rfl

theorem selectBranch_drawn (hways : m.ways trigger run.inst v ≠ []) :
    selectBranch m c v .choice (m.outgoing v) trigger run =
      .ok (m.ways trigger run.inst v)[(c.random (m.ways trigger run.inst v).length run.outside).1 %
          (m.ways trigger run.inst v).length]?
        { run.note (.drew (m.ways trigger run.inst v).length (c.random (m.ways trigger run.inst v).length run.outside).1)
          with outside := (c.random (m.ways trigger run.inst v).length run.outside).2 } := by
  unfold selectBranch
  rw [inst_bind_apply, ← ways_eq_enabled]
  rcases hlist : m.ways trigger run.inst v with _ | ⟨t, _ | ⟨t', rest⟩⟩
  · exact absurd hlist hways
  · rfl
  · rfl

include hkind in
theorem selectBranch_stuck {error : MachineError} (hstuck : m.Stuck trigger run.inst v error) :
    selectBranch m c v kind (m.outgoing v) trigger run =
      (do report c error; pure none : Eval μ δ σ (Option TransitionId)) run := by
  unfold selectBranch
  rw [inst_bind_apply, ← ways_eq_enabled]
  cases hstuck with
  | noBranch hways helse =>
    have hnone : (m.outgoing v).find? m.isElse = none := List.find?_eq_none.mpr fun t ht => by simp [helse t ht]
    rw [hways]
    simp only [hnone]
  | ambiguous hjunction hways =>
    obtain rfl : kind = .junction := by simpa [hkind] using hjunction
    rcases hlist : m.ways trigger run.inst v with _ | ⟨t, _ | ⟨t', rest⟩⟩
    · simp [hlist] at hways
    · simp [hlist] at hways
    · rfl

include hkind hb

theorem selects_selectBranch :
    Selects m c trigger v run (selectBranch m c v kind (m.outgoing v) trigger run) := by
  have hreport : ∀ error, m.Stuck trigger run.inst v error →
      Selects m c trigger v run (selectBranch m c v kind (m.outgoing v) trigger run) := fun error hstuck => by
    rw [selectBranch_stuck hkind hstuck]
    change Selects m c trigger v run (EStateM.bind (report c error) (fun _ => pure none) run)
    unfold EStateM.bind report
    rcases hsink : c.tolerate error run.outside with ⟨_ | _, s⟩
    · exact .refused hstuck hsink
    · exact .passed hstuck hsink
  -- What is enabled decides before the kind of the branch does.
  by_cases hways : m.ways trigger run.inst v = []
  · cases helse : (m.outgoing v).find? m.isElse with
    | some t =>
      rw [selectBranch_otherwise hways helse]
      exact .otherwise hways helse
    | none => exact hreport _ (.noBranch hways (by simpa using List.find?_eq_none.mp helse))
  · have hlength := List.length_pos_iff.mpr hways
    cases kind with
    | choice =>
      rw [selectBranch_drawn hways]
      have ht := List.getElem?_eq_getElem (Nat.mod_lt
        (c.random (m.ways trigger run.inst v).length run.outside).1 hlength)
      have hdrawn : Selects m c trigger v run _ := .drawn hkind rfl ht
      rwa [← ht] at hdrawn
    | junction =>
      by_cases hone : (m.ways trigger run.inst v).length = 1
      · obtain ⟨t, ht⟩ := List.length_eq_one_iff.mp hone
        rw [selectBranch_only ht]
        exact .only hkind ht
      · exact hreport _ (.ambiguous hkind (by omega))
    | _ => cases hb

omit hb in
theorem Selects.eq_selectBranch {result : EStateM.Result Halt (Run μ δ σ) (Option TransitionId)}
    (h : Selects m c trigger v run result) : selectBranch m c v kind (m.outgoing v) trigger run = result := by
  cases h with
  | only hjunction hways =>
    obtain rfl : kind = .junction := by simpa [hkind] using hjunction
    exact selectBranch_only hways
  | drawn hchoice hdraw ht =>
    obtain rfl : kind = .choice := by simpa [hkind] using hchoice
    have hways : m.ways trigger run.inst v ≠ [] := fun hnil => by simp [hnil] at ht
    rw [selectBranch_drawn hways, hdraw, ht]
  | otherwise hways ht => exact selectBranch_otherwise hways ht
  | passed hstuck hsink =>
    rw [selectBranch_stuck hkind hstuck]
    change EStateM.bind (report c _) (fun _ => pure none) run = _
    simp only [EStateM.bind, report, hsink]
    rfl
  | refused hstuck hsink =>
    rw [selectBranch_stuck hkind hstuck]
    change EStateM.bind (report c _) (fun _ => pure none) run = _
    simp only [EStateM.bind, report, hsink]

end

theorem existsUnique_selects (c : Context σ) (trigger : Trigger μ) (run : Run μ δ σ) (hv : m.isBranch v = true) :
    ∃! result, Selects m c trigger v run result := by
  obtain ⟨kind, hkind, hb⟩ := isBranch_iff.mp hv
  exact ⟨_, selects_selectBranch hkind hb, fun result h => (h.eq_selectBranch hkind).symm⟩

/-! ## What following a transition comes to -/

/-- With some supply of fuel this is the result, and the fuel does not run out. -/
def Ends {α : Type} (x : Nat → Eval μ δ σ α) (run : Run μ δ σ) (result : EStateM.Result Halt (Run μ δ σ) α) : Prop :=
  (∀ last, result ≠ .error .outOfFuel last) ∧ ∃ fuel, x fuel run = result

def Strides (m : Model μ δ) (p : Program μ δ) (c : Context σ) (trigger : Trigger μ) (t : TransitionId)
    (run : Run μ δ σ) (result : EStateM.Result Halt (Run μ δ σ) Unit) : Prop :=
  ∃ route, p.route? t = some route ∧
    Ends (fun fuel => perform m p c fuel { trigger, nested := true } (route.steps run.inst))
      (run.note (.fired t trigger run.inst)) result

def arriving (m : Model μ δ) (target : Option VertexId) (run : Run μ δ σ) : Run μ δ σ :=
  { run with arrived := run.arrived ++ (target.filter m.isState).toList }

/-- What following a transition comes to, branch by branch. -/
inductive Resolves (m : Model μ δ) (p : Program μ δ) (c : Context σ) (trigger : Trigger μ) :
    TransitionId → Run μ δ σ → EStateM.Result Halt (Run μ δ σ) Unit → Prop
  | halts {t : TransitionId} {run : Run μ δ σ} {halt run'} (hstrides : Strides m p c trigger t run (.error halt run')) :
      Resolves m p c trigger t run (.error halt run')
  | arrived {t : TransitionId} {run : Run μ δ σ} {mid record} (hrec : m.transition? t = some record)
      (hstrides : Strides m p c trigger t run (.ok () mid))
      (hu : ∀ u ∈ record.target, m.isBranch u = false) :
      Resolves m p c trigger t run (.ok () (arriving m record.target mid))
  | onwards {t : TransitionId} {run : Run μ δ σ} {mid mid' record u next result} (hrec : m.transition? t = some record)
      (hstrides : Strides m p c trigger t run (.ok () mid)) (hu : record.target = some u) (hb : m.isBranch u = true)
      (hselects : Selects m c trigger u mid (.ok (some next) mid')) (hrest : Resolves m p c trigger next mid' result) :
      Resolves m p c trigger t run result
  | passed {t : TransitionId} {run : Run μ δ σ} {mid mid' record u} (hrec : m.transition? t = some record)
      (hstrides : Strides m p c trigger t run (.ok () mid)) (hu : record.target = some u) (hb : m.isBranch u = true)
      (hselects : Selects m c trigger u mid (.ok none mid')) : Resolves m p c trigger t run (.ok () mid')
  | refused {t : TransitionId} {run : Run μ δ σ} {mid mid' record u halt} (hrec : m.transition? t = some record)
      (hstrides : Strides m p c trigger t run (.ok () mid)) (hu : record.target = some u) (hb : m.isBranch u = true)
      (hselects : Selects m c trigger u mid (.error halt mid')) : Resolves m p c trigger t run (.error halt mid')

section
variable {x : Nat → Eval μ δ σ Unit} {result : EStateM.Result Halt (Run μ δ σ) Unit}

theorem Ends.enough (hends : Ends x run result) (hx : ∀ n, ∀ n' ≥ n, Extends (x n) (x n')) :
    ∃ n, ∀ fuel ≥ n, x fuel run = result := by
  obtain ⟨hne, n, hn⟩ := hends
  refine ⟨n, fun fuel hf => ?_⟩
  rcases hx n fuel hf run trivial with ⟨last, hout⟩ | hsame
  · exact absurd (hn.symm.trans hout) (hne last)
  · exact hsame.trans hn

theorem Strides.enough (hstrides : Strides m p c trigger t run result) : ∃ route, p.route? t = some route ∧
    ∃ n, ∀ fuel ≥ n, perform m p c fuel { trigger, nested := true } (route.steps run.inst)
      (run.note (.fired t trigger run.inst)) = result := by
  obtain ⟨route, hroute, hends⟩ := hstrides
  exact ⟨route, hroute, hends.enough fun n n' hn => (prolongs n).perform n' hn _ _⟩

theorem exists_succ {n : Nat} (hx : ∀ fuel ≥ n, x (fuel + 1) run = result) : ∃ n, ∀ fuel ≥ n, x fuel run = result := by
  refine ⟨n + 1, fun fuel hf => ?_⟩
  obtain ⟨k, rfl⟩ : ∃ k, fuel = k + 1 := ⟨fuel - 1, by omega⟩
  exact hx k (by omega)

end

theorem Selects.not_outOfFuel (h : Selects m c trigger v run (.error halt run')) : halt ≠ .outOfFuel := by
  cases h
  nofun

theorem Resolves.not_outOfFuel {result : EStateM.Result Halt (Run μ δ σ) Unit}
    (h : Resolves m p c trigger t run result) (last : Run μ δ σ) : result ≠ .error .outOfFuel last := by
  induction h with
  | halts hstrides =>
    obtain ⟨_, _, hends⟩ := hstrides
    exact hends.1 last
  | onwards _ _ _ _ _ _ ih => exact ih
  | refused _ _ _ _ hselects =>
    rintro ⟨⟩
    exact hselects.not_outOfFuel rfl
  | _ => nofun

section
variable {fuel : Nat} {halt : Halt} {route : Route μ δ}
variable (hrec : m.transition? t = some record) (hroute : p.route? t = some route)
include hrec hroute

theorem follow_halts (hsteps : perform m p c fuel { trigger, nested := true } (route.steps run.inst)
      (run.note (.fired t trigger run.inst)) = .error halt run') :
    follow m p c (fuel + 1) trigger t run = .error halt run' := by
  simp only [follow, hrec, hroute]
  change EStateM.bind (perform m p c fuel { trigger, nested := true } (route.steps run.inst)) _
    (run.note (.fired t trigger run.inst)) = _
  simp only [EStateM.bind, hsteps]

section
variable (hsteps : perform m p c fuel { trigger, nested := true } (route.steps run.inst)
  (run.note (.fired t trigger run.inst)) = .ok () mid)
include hsteps

theorem follow_over (hknown : ∀ u ∈ record.target, (m.vertex? u).isSome)
    (hu : ∀ u ∈ record.target, m.isBranch u = false) :
    follow m p c (fuel + 1) trigger t run = .ok () (arriving m record.target mid) := by
  simp only [follow, hrec, hroute]
  change EStateM.bind (perform m p c fuel { trigger, nested := true } (route.steps run.inst)) _
    (run.note (.fired t trigger run.inst)) = _
  simp only [EStateM.bind, hsteps]
  cases htarget : record.target with
  | none => simp [arriving]; rfl
  | some u =>
    obtain ⟨reached, hv⟩ := Option.isSome_iff_exists.mp (hknown u htarget)
    have hbranch := hu u htarget
    simp only [vertex, hv, pure_bind]
    cases hf : reached.form with
    | state content =>
      have hs : m.isState u = true := isState_iff.mpr ⟨reached, content, hv, hf⟩
      simp only [arriving, Option.filter, hs]
      rfl
    | pseudo kind =>
      have hs : m.isState u = false := by simp [Model.isState, hv, Vertex.isState, Vertex.state?, hf]
      have hk : kind.isBranch = false := by simpa [Model.isBranch, hv, Vertex.pseudoKind?, hf] using hbranch
      simp only [arriving, Option.filter, hs, hk, Bool.false_eq_true, ite_false, Option.toList, List.append_nil]
      rfl

theorem follow_branch (hu : record.target = some u) (hb : m.isBranch u = true)
    {selected : EStateM.Result Halt (Run μ δ σ) (Option TransitionId)} (hselects : Selects m c trigger u mid selected) :
    follow m p c (fuel + 1) trigger t run =
      match selected with
      | .ok (some next) mid' => follow m p c fuel trigger next mid'
      | .ok none mid' => .ok () mid'
      | .error halt mid' => .error halt mid' := by
  obtain ⟨kind, hkind, hbranch⟩ := isBranch_iff.mp hb
  obtain ⟨reached, hv, hf⟩ := kind?_eq_some.mp hkind
  have hout : reached.outgoing = m.outgoing u := by simp [Model.outgoing, hv]
  simp only [follow, hrec, hroute]
  change EStateM.bind (perform m p c fuel { trigger, nested := true } (route.steps run.inst)) _
    (run.note (.fired t trigger run.inst)) = _
  simp only [EStateM.bind, hsteps, hu, vertex, hv, pure_bind, hf, hbranch, ite_true, hout]
  change EStateM.bind (selectBranch m c u kind (m.outgoing u) trigger) _ mid = _
  rw [EStateM.bind, hselects.eq_selectBranch hkind]
  rcases selected with ⟨_ | next, mid'⟩ | ⟨halt, mid'⟩ <;> rfl

end

end

theorem target_isSome (h : m.Arena) (hrec : m.transition? t = some record) :
    ∀ u ∈ record.target, (m.vertex? u).isSome := fun _ hu => h.target_isSome hrec hu

theorem exists_of_mem_outgoing (h : m.Arena) (ht : t ∈ m.outgoing u) : (m.transition? t).isSome := by
  obtain ⟨record, hrec, _⟩ := h.source_of_mem_outgoing ht
  simp [hrec]

theorem Selects.mem_outgoing (h : Selects m c trigger v run (.ok (some next) run')) : next ∈ m.outgoing v := by
  have hmem : ∀ {t}, t ∈ m.ways trigger run.inst v → t ∈ m.outgoing v := fun ht => (List.mem_filter.mp ht).1
  cases h with
  | only _ hways => exact hmem (by simp [hways])
  | drawn _ _ ht => exact hmem (List.mem_of_getElem? ht)
  | otherwise _ ht => exact List.mem_of_find?_eq_some ht

section
variable {plainly : RegionId → Bool} (h : m.Arena)
include h

theorem resolves_of_follow (fuel : Nat) (t : TransitionId) (ht : (m.transition? t).isSome) (run : Run μ δ σ)
    (hresult : ∀ last, follow m (m.compileWith plainly) c fuel trigger t run ≠ .error .outOfFuel last) :
    Resolves m (m.compileWith plainly) c trigger t run (follow m (m.compileWith plainly) c fuel trigger t run) := by
  -- Each transition on the way takes one from the fuel, and the rest of the way is followed with what is left.
  induction fuel generalizing t run with
  | zero => exact absurd rfl (hresult run)
  | succ fuel ih =>
    obtain ⟨record, hrec⟩ := Option.isSome_iff_exists.mp ht
    have hroute : (m.compileWith plainly).route? t = some (m.route plainly t) := route?_compileWith ht
    have hstrides : ∀ result, (∀ last, result ≠ .error .outOfFuel last) →
        perform m (m.compileWith plainly) c fuel { trigger, nested := true } ((m.route plainly t).steps run.inst)
          (run.note (.fired t trigger run.inst)) = result → Strides m (m.compileWith plainly) c trigger t run result :=
      fun result hne heq => ⟨_, hroute, hne, fuel, heq⟩
    cases hsteps : perform m (m.compileWith plainly) c fuel { trigger, nested := true }
        ((m.route plainly t).steps run.inst) (run.note (.fired t trigger run.inst)) with
    | error halt run' =>
      rw [follow_halts hrec hroute hsteps] at hresult ⊢
      exact .halts (hstrides _ hresult hsteps)
    | ok _ mid =>
      have hstrides := hstrides (.ok () mid) nofun hsteps
      by_cases hover : ∀ u ∈ record.target, m.isBranch u = false
      · rw [follow_over hrec hroute hsteps (target_isSome h hrec) hover]
        exact .arrived hrec hstrides hover
      · obtain ⟨u, hu, hb⟩ : ∃ u, record.target = some u ∧ m.isBranch u = true := by simpa using hover
        obtain ⟨selected, hselects, -⟩ := existsUnique_selects c trigger mid hb
        rw [follow_branch hrec hroute hsteps hu hb hselects] at hresult ⊢
        rcases selected with ⟨_ | next, mid'⟩ | ⟨halt, mid'⟩
        · exact .passed hrec hstrides hu hb hselects
        · have hknown := exists_of_mem_outgoing h hselects.mem_outgoing
          exact .onwards hrec hstrides hu hb hselects (ih next hknown mid' hresult)
        · exact .refused hrec hstrides hu hb hselects

theorem ends_follow {result : EStateM.Result Halt (Run μ δ σ) Unit}
    (hresolves : Resolves m (m.compileWith plainly) c trigger t run result) :
    Ends (fun fuel => follow m (m.compileWith plainly) c fuel trigger t) run result := by
  -- Two parts of the way may need different fuel, so it is enough fuel, and not some, that the rules can be joined by.
  suffices henough : ∃ n, ∀ fuel ≥ n, follow m (m.compileWith plainly) c fuel trigger t run = result from by
    obtain ⟨n, hn⟩ := henough
    exact ⟨hresolves.not_outOfFuel, n, hn n (Nat.le_refl n)⟩
  induction hresolves with
  | halts hstrides =>
    obtain ⟨route, hroute, n, hn⟩ := hstrides.enough
    obtain ⟨record, hrec⟩ := Option.isSome_iff_exists.mp (transition?_isSome_of_route? hroute)
    exact exists_succ fun fuel hf => follow_halts hrec hroute (hn fuel hf)
  | arrived hrec hstrides hu =>
    obtain ⟨route, hroute, n, hn⟩ := hstrides.enough
    exact exists_succ fun fuel hf => follow_over hrec hroute (hn fuel hf) (target_isSome h hrec) hu
  | onwards hrec hstrides hu hb hselects _ ih =>
    obtain ⟨route, hroute, n, hn⟩ := hstrides.enough
    obtain ⟨n', hn'⟩ := ih
    refine exists_succ (n := max n n') fun fuel hf => ?_
    rw [follow_branch hrec hroute (hn fuel (by omega)) hu hb hselects]
    exact hn' fuel (by omega)
  | passed hrec hstrides hu hb hselects =>
    obtain ⟨route, hroute, n, hn⟩ := hstrides.enough
    exact exists_succ fun fuel hf => follow_branch hrec hroute (hn fuel hf) hu hb hselects
  | refused hrec hstrides hu hb hselects =>
    obtain ⟨route, hroute, n, hn⟩ := hstrides.enough
    exact exists_succ fun fuel hf => follow_branch hrec hroute (hn fuel hf) hu hb hselects

end

/-! ## Draws -/

/-- The transition is, of the ways open at a choice, the one that the number picks. -/
def Picks (m : Model μ δ) (count value : Nat) : Event μ δ → Prop
  | .fired t trigger before => ∃ v, m.kind? v = some .choice ∧ count = (m.ways trigger before v).length ∧
      (m.ways trigger before v)[value % count]? = some t
  | _ => False

/-- Whenever a number has been drawn, the transition that it picks fires next. The latest event comes first. -/
def Heeded (m : Model μ δ) (events : List (Event μ δ)) : Prop :=
  ∀ later count value earlier, events = later ++ .drew count value :: earlier →
    ∃ before event, later = before ++ [event] ∧ Picks m count value event

variable {events : List (Event μ δ)} {event : Event μ δ}

theorem heeded_nil : Heeded m ([] : List (Event μ δ)) := by
  intro later count value earlier heq
  cases later <;> cases heq

theorem Heeded.cons (hr : Heeded m events) (he : ∀ count value, event ≠ .drew count value) :
    Heeded m (event :: events) := by
  intro later count value earlier heq
  cases later with
  | nil => exact absurd (List.cons.inj heq).1 (he count value)
  | cons e later =>
    rw [List.cons_append, List.cons.injEq] at heq
    obtain ⟨before, event', hlater, hpicks⟩ := hr later count value earlier heq.2
    exact ⟨e :: before, event', by rw [hlater]; rfl, hpicks⟩

theorem Heeded.picked {count value : Nat} (hr : Heeded m events) (hpicks : Picks m count value event) :
    Heeded m (event :: .drew count value :: events) := by
  intro later count' value' earlier heq
  rcases later with _ | ⟨e, _ | ⟨e', later⟩⟩
  · rw [(List.cons.inj heq).1] at hpicks
    exact hpicks.elim
  · simp only [List.cons_append, List.nil_append, List.cons.injEq, Event.drew.injEq] at heq
    obtain ⟨heq, ⟨rfl, rfl⟩, _⟩ := heq
    exact ⟨[], e, rfl, heq ▸ hpicks⟩
  · simp only [List.cons_append, List.cons.injEq] at heq
    obtain ⟨before, event', hlater, hpicks'⟩ := hr later count' value' earlier heq.2.2
    exact ⟨e :: e' :: before, event', by rw [hlater]; rfl, hpicks'⟩

def HeededUnless (m : Model μ δ) (halt : Halt) (run : Run μ δ σ) : Prop := halt ≠ .outOfFuel → Heeded m run.events

theorem robust_heeded : Robust m (fun _ => True) fun run : Run μ δ σ => Heeded m run.events where
  enter _ _ _ hr := hr.cons nofun
  leave _ _ _ hr := hr.cons nofun
  act _ _ _ _ _ hr := hr.cons nofun
  record _ _ _ _ hr := hr
  terminate _ hr := hr

theorem triple_heeded_report (error : MachineError) : Triple (fun run : Run μ δ σ => Heeded m run.events)
    (report c error) (fun _ run => Heeded m run.events) (HeededUnless m) := by
  intro run hr
  unfold report
  rcases c.tolerate error run.outside with ⟨_ | _, s⟩
  · exact fun _ => hr.cons nofun
  · exact hr.cons nofun

theorem triple_heeded_selectBranch (hkind : m.kind? v = some kind) (hb : kind.isBranch = true) :
    Triple (fun run : Run μ δ σ => Heeded m run.events) (selectBranch m c v kind (m.outgoing v) trigger)
      (fun next run => Heeded m run.events ∧ next = none ∨ ∃ t ∈ next, t ∈ m.outgoing v ∧
        Heeded m (.fired t trigger run.inst :: run.events)) (HeededUnless m) := by
  intro run hr
  have hselects : Selects m c trigger v run _ := selects_selectBranch hkind hb
  cases hres : selectBranch m c v kind (m.outgoing v) trigger run with
  | error halt run' =>
    rw [hres] at hselects
    cases hselects
    exact fun _ => hr.cons nofun
  | ok next run' =>
    rw [hres] at hselects
    cases next with
    | none =>
      cases hselects
      exact Or.inl ⟨hr.cons nofun, rfl⟩
    | some t =>
      refine Or.inr ⟨t, rfl, hselects.mem_outgoing, ?_⟩
      cases hselects with
      | drawn hkind hdraw ht => exact hr.picked ⟨v, hkind, rfl, ht⟩
      | only _ _ => exact hr.cons nofun
      | otherwise _ _ => exact hr.cons nofun

structure Heeds (m : Model μ δ) (plainly : RegionId → Bool) (c : Context σ) (k : Nat) : Prop where
  step : ∀ mode s, m.Within (fun _ => True) (fun _ => True) s → Triple (fun run => Heeded m run.events)
    (performStep m (m.compileWith plainly) c k mode s) (fun _ run => Heeded m run.events) (HeededUnless m)
  follow : ∀ trigger t, (m.transition? t).isSome →
    Triple (fun run => Heeded m (.fired t trigger run.inst :: run.events))
      (follow m (m.compileWith plainly) c k trigger t) (fun _ run => Heeded m run.events) (HeededUnless m)
  complete : ∀ v, Triple (fun run => Heeded m run.events)
    (complete m (m.compileWith plainly) c k v) (fun _ run => Heeded m run.events) (HeededUnless m)
  offer : ∀ trigger v, Triple (fun run => Heeded m run.events)
    (offer m (m.compileWith plainly) c k trigger v) (fun _ run => Heeded m run.events) (HeededUnless m)

section
variable {plainly : RegionId → Bool} (h : m.Arena) {k : Nat} (ih : ∀ j < k, Heeds m plainly c j)
include ih

theorem Heeds.does (mode : Mode μ) {l : List (Step μ δ)}
    (hl : ∀ s ∈ l, m.Within (fun _ => True) (fun _ => True) s) :
    Does m (m.compileWith plainly) c (HeededUnless m) k mode (fun run => Heeded m run.events) l
      fun run => Heeded m run.events :=
  Does.keeps (fun _ _ hne => absurd rfl hne) fun s hs j hj => (ih j hj).step mode s (hl s hs)

theorem triple_heeded_traverse (mode : Mode μ) (t : TransitionId) (ht : (m.transition? t).isSome) :
    Triple (fun run : Run μ δ σ => Heeded m run.events) (traverse m (m.compileWith plainly) c k mode t)
      (fun _ run => Heeded m run.events) (HeededUnless m) :=
  triple_traverse_keeps (fun _ _ hne => absurd rfl hne) (fun _ _ hne => absurd rfl hne) (fun _ hr => hr)
    (fun j hj => ((ih j hj).follow mode.trigger t ht).pre fun _ hr => hr.cons nofun) fun v j hj => (ih j hj).complete v

include h

theorem triple_heeded_step (mode : Mode μ) {s : Step μ δ} (hs : m.Within (fun _ => True) (fun _ => True) s) :
    Triple (fun run : Run μ δ σ => Heeded m run.events) (performStep m (m.compileWith plainly) c k mode s)
      (fun _ run => Heeded m run.events) (HeededUnless m) := by
  refine robust_heeded.step (E := HeededUnless m) (fun _ _ hr _ => hr) h (acts_any m) (fun deep j hj l hl => ?_)
    (fun j hj t record hrec _ => ?_) hs
  · exact Heeds.does (fun i hi => ih i (by omega)) { mode with deep } hl j (Nat.le_refl j)
  · exact triple_heeded_traverse (fun i hi => ih i (by omega)) mode t (by simp [hrec])

theorem triple_heeded_follow (trigger : Trigger μ) (t : TransitionId) (ht : (m.transition? t).isSome) :
    Triple (fun run : Run μ δ σ => Heeded m (.fired t trigger run.inst :: run.events))
      (follow m (m.compileWith plainly) c k trigger t) (fun _ run => Heeded m run.events) (HeededUnless m) := by
  obtain ⟨record, hrec⟩ := Option.isSome_iff_exists.mp ht
  refine triple_follow_by (T := fun run => Heeded m run.events) (R := fun run => Heeded m run.events)
    (fun _ _ hne => absurd rfl hne) hrec (route?_compileWith ht) (fun _ hr => hr) (fun i j hj => ?_)
    (fun _ _ hr => hr) (fun _ _ hr _ _ _ => hr) (fun _ _ _ _ hr => hr) (fun _ _ _ _ _ hr => hr)
    fun u reached kind hu hv hf hb j hj => ?_
  · exact (Heeds.does (fun l hl => ih l (by omega)) _ (within_route h (acts_any m) (fun _ => trivial) t i) j
      (Nat.le_refl j)).pre fun _ hr => hr.1
  · have hout : reached.outgoing = m.outgoing u := by simp [Model.outgoing, hv]
    rw [hout]
    refine Triple.bind (triple_heeded_selectBranch (kind?_eq_some.mpr ⟨reached, hv, hf⟩) hb) fun next => ?_
    cases next with
    | none => exact Triple.pure fun run hr => (hr.resolve_right (by simp)).1
    | some next =>
      refine Triple.assume fun run hr => ?_
      obtain ⟨_, hnext, hmem, hfired⟩ := hr.resolve_left (by simp)
      cases hnext
      exact ((ih j hj).follow trigger next (exists_of_mem_outgoing h hmem)).start hfired

omit h in
theorem triple_heeded_complete (v : VertexId) : Triple (fun run : Run μ δ σ => Heeded m run.events)
    (complete m (m.compileWith plainly) c k v) (fun _ run => Heeded m run.events) (HeededUnless m) :=
  triple_complete (fun _ _ hne => absurd rfl hne) (fun _ hr _ _ => hr) (fun _ hr _ _ => hr) (fun _ hr _ => hr)
    fun j hj => ((ih j hj).offer (.completion v) v).pre fun _ hr => hr.1

theorem triple_heeded_offer (trigger : Trigger μ) (v : VertexId) : Triple (fun run : Run μ δ σ => Heeded m run.events)
    (offer m (m.compileWith plainly) c k trigger v) (fun _ run => Heeded m run.events) (HeededUnless m) := by
  refine triple_offer_keeps (fun _ _ hne => absurd rfl hne) (fun _ hr _ _ => hr) (fun _ hr => hr.cons nofun)
    (fun _ hr _ _ => hr) (fun _ _ current j hj => ((ih j hj).offer trigger current).pre fun _ hr => hr.1)
    (fun j hj => (ih j hj).complete v) (fun t j hj => Triple.assume fun run hr => ?_) triple_heeded_report
  obtain ⟨record, hrec, _⟩ := source_of_enabled h (hr.2 ▸ List.mem_singleton_self t)
  exact (triple_heeded_traverse (fun i hi => ih i (by omega)) { trigger } t (by simp [hrec])).start hr.1

end

theorem heeds {plainly : RegionId → Bool} (h : m.Arena) (k : Nat) : Heeds m plainly c k := by
  induction k using Nat.strongRecOn with
  | ind k ih =>
  exact ⟨fun mode _ hs => triple_heeded_step h ih mode hs, triple_heeded_follow h ih, triple_heeded_complete ih,
    triple_heeded_offer h ih⟩

theorem heeded_of_triple {α : Type} {x : Eval μ δ σ α} {start : Run μ δ σ}
    (hx : Triple (fun run => Heeded m run.events) x (fun _ run => Heeded m run.events) (HeededUnless m))
    (hstart : Heeded m start.events) (hne : ∀ last, x start ≠ .error .outOfFuel last) :
    Heeded m (ran (x start)).events := by
  cases hres : x start with
  | ok a run => exact hx.of_ok hstart hres
  | error halt run => exact hx.of_error hstart hres fun heq => hne run (heq ▸ hres)

end Eval

namespace Machine

variable {m : Machine μ δ}

theorem Built.heeded_initialise (hm : m.Built) (c : Context σ) (fuel : Nat) (i : Instance δ) (s : σ)
    (hne : ∀ last, (m.initialise c fuel i s).2 ≠ .error .outOfFuel last) :
    Eval.Heeded m.toModel (ran (m.initialise c fuel i s).2).events := by
  have h := hm.sound.arena
  cases hp : m.prepare? c with
  | none => simpa [initialise, hp, ran] using Eval.heeded_nil
  | some m' =>
    rw [(initialise_eq hm.sound hp fuel i s).2.2] at hne ⊢
    have hsteps : ∀ s ∈ (m.compileWith m.isEnteredPlainly).onInitialise, m.Within (fun _ => True) (fun _ => True) s :=
      Model.within_onInitialise h (Model.acts_any m.toModel)
    exact Eval.heeded_of_triple (Eval.Heeds.does (fun j _ => Eval.heeds h j) _ hsteps fuel (Nat.le_refl fuel))
      Eval.heeded_nil hne

theorem Built.heeded_evaluate (hm : m.Built) (c : Context σ) (fuel : Nat) (message : μ) (i : Instance δ) (s : σ)
    (hne : ∀ last, (m.evaluate c fuel message i s).2 ≠ .error .outOfFuel last) :
    Eval.Heeded m.toModel (ran (m.evaluate c fuel message i s).2).events := by
  cases hn : i.terminated with
  | true => simpa [evaluate, hn, ran] using Eval.heeded_nil
  | false =>
    cases hp : m.prepare? c with
    | none => simpa [evaluate, hn, hp, ran] using Eval.heeded_nil
    | some m' =>
      rw [(evaluate_eq hm.sound hp fuel message hn s).2.2] at hne ⊢
      exact Eval.heeded_of_triple ((Eval.heeds hm.sound.arena fuel).offer (.message message) root) Eval.heeded_nil hne

/-- Where a transition leads from branch to branch, the guards at each are looked at when it is reached, and what is
followed, drawn or reported there is settled by them. What following the transition comes to is what comes about so,
branch by branch; and nowhere in a call is a number drawn but at a choice, for the transition that fires next. -/
theorem Built.resolves_branches (hm : m.Built) {p : Program μ δ} (hp : m.program = some p) (c : Context σ) :
    (∀ trigger v run, m.isBranch v = true → ∃! result, Eval.Selects m.toModel c trigger v run result) ∧
    (∀ trigger t run result, (m.transition? t).isSome →
      (Eval.Ends (fun fuel => Eval.follow m.toModel p c fuel trigger t) run result ↔
        Eval.Resolves m.toModel p c trigger t run result)) ∧
    (∀ fuel i s, (∀ last, (m.initialise c fuel i s).2 ≠ .error .outOfFuel last) →
      Eval.Heeded m.toModel (ran (m.initialise c fuel i s).2).events) ∧
    ∀ fuel message i s, (∀ last, (m.evaluate c fuel message i s).2 ≠ .error .outOfFuel last) →
      Eval.Heeded m.toModel (ran (m.evaluate c fuel message i s).2).events := by
  have h := hm.sound.arena
  obtain rfl := hm.sound.program p hp
  refine ⟨fun trigger v run => Eval.existsUnique_selects c trigger run, fun trigger t run result ht => ⟨?_, ?_⟩,
    hm.heeded_initialise c, hm.heeded_evaluate c⟩
  · rintro ⟨hne, fuel, rfl⟩
    exact Eval.resolves_of_follow h fuel t ht run hne
  · exact Eval.ends_follow h

/-- The way on from the junction is open only because of what has been done on the way there, and the choice after it
has two ways open because of what has been done on the way from the junction. -/
def crossroads : Machine String Nat := (ofName "m").edited
  [.addState (.state root) "home", .addPseudoState (.region ⟨0⟩) "fork" .junction,
    .addPseudoState (.region ⟨0⟩) "chance" .choice, .addState (.region ⟨0⟩) "mill", .addState (.region ⟨0⟩) "pond",
    .addTransition (((Draft.between ⟨1⟩ ⟨2⟩).on "walk").effect fun _ i => { i with data := i.data + 1 }),
    .addTransition (.when (.between ⟨2⟩ ⟨1⟩) fun _ i => i.data = 0),
    .addTransition ((Draft.when (.between ⟨2⟩ ⟨3⟩) fun _ i => i.data = 1).effect
      fun _ i => { i with data := i.data + 1 }),
    .addTransition (.when (.between ⟨3⟩ ⟨4⟩) fun _ i => i.data = 2),
    .addTransition (.when (.between ⟨3⟩ ⟨5⟩) fun _ i => i.data = 2), .addTransition (.otherwise (.between ⟨3⟩ ⟨1⟩))]

def loaded (value : Nat) : Context Unit := { Context.strict with random := fun _ s => (value, s) }

def athome : Run String Nat Unit where
  inst := ({ data := 0 } : Instance Nat).setCurrent ⟨0⟩ ⟨1⟩
  outside := ()

theorem resolves_branches_crossroads : ∃ run', Eval.Resolves crossroads.compile.toModel crossroads.toModel.compile
      (loaded 7) (.message "walk") ⟨0⟩ athome (.ok () run') ∧ run'.inst.current? ⟨0⟩ = some ⟨5⟩ ∧
    Eval.Heeded crossroads.compile.toModel
      (ran (crossroads.compile.evaluate (loaded 7) 50 "walk" athome.inst ()).2).events := by
  have hbuilt : crossroads.compile.Built := .compile ((Built.ofName "m").edited _)
  obtain ⟨_, hresolves, _, hheeded⟩ := Built.resolves_branches hbuilt rfl (loaded 7)
  have hfollow : answer? (Eval.follow crossroads.compile.toModel crossroads.toModel.compile (loaded 7) 50
      (.message "walk") ⟨0⟩ athome) = some () := by decide +kernel
  have hevaluate : answer? (crossroads.compile.evaluate (loaded 7) 50 "walk" athome.inst ()).2 = some true := by
    decide +kernel
  refine ⟨_, (hresolves _ _ _ _ (by decide +kernel)).mp ⟨nofun, 50, eq_ok_of_answer? hfollow⟩, by decide +kernel,
    hheeded 50 "walk" athome.inst () (by rw [eq_ok_of_answer? hevaluate]; nofun)⟩

end Machine

end Statechart
