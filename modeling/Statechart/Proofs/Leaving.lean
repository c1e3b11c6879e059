import Mathlib.Data.List.Nodup
import Statechart.Proofs.Exits
import Statechart.Proofs.Settling

/-!
# Leaving by the records

Leaving a vertex walks down the records and back: region by region, what is recorded beneath the vertex is left first,
and then the vertex itself, with its exit actions. Actions that keep to the data change nothing of what is walked.
-/

namespace Statechart

variable {μ δ σ : Type}

def Event.leavesRegion : Event μ δ → Bool
  | .left (.region _) => true
  | _ => false

def Event.cause? : Event μ δ → Option Cause
  | .acted cause => some cause
  | _ => none

def Event.IsDeparture : Event μ δ → Prop
  | .left _ | .acted (.exit _) => True
  | _ => False

/-- What going through a vertex makes of the instance and tells, and what may be told besides. -/
structure Walk (μ δ : Type) where
  visit : Instance δ → VertexId → Instance δ
  tell : VertexId → List (Event μ δ)
  aside : Event μ δ → Bool

namespace Model

variable {m : Model μ δ} {i : Instance δ} {v w : VertexId}

/-! ## What is left, in its order -/

def departuresWithin (m : Model μ δ) (i : Instance δ) : Nat → VertexId → List VertexId
  | 0, _ => []
  | height + 1, v =>
    ((m.regionsOf v).flatMap fun r => (i.current? r).elim [] (departuresWithin m i height)) ++ [v]

/-- What the records lead down to from `v`, region by region, and `v` last. -/
def departures (m : Model μ δ) (i : Instance δ) (v : VertexId) : List VertexId :=
  m.departuresWithin i m.vertices.size v

/-- The exit actions of what the records lead down to from `v`, with the states that they belong to. -/
def exits (m : Model μ δ) (i : Instance δ) (v : VertexId) : List (VertexId × Action μ δ) :=
  (m.departures i v).flatMap fun w => (m.exitActions w).map (w, ·)

def exitWalk (m : Model μ δ) (trigger : Trigger μ) : Walk μ δ where
  visit i v := (m.exitActions v).foldl (fun i a => a trigger i) i
  tell := m.exitEvents
  aside := Event.leavesRegion

theorem length_exitActions (m : Model μ δ) (v : VertexId) : (m.exitActions v).length = m.exitCount v := by
  unfold exitActions exitCount
  cases (m.vertex? v).bind (·.state?) <;> rfl

section
variable (h : m.Arena) (hi : m.Fits false i)
include h hi

/-- Induction from what is recorded upwards. -/
theorem Fits.induction {motive : VertexId → Prop}
    (step : ∀ v, (m.vertex? v).isSome → (∀ r ∈ m.regionsOf v, ∀ x, i.current? r = some x → motive x) → motive v)
    (v : VertexId) (hv : (m.vertex? v).isSome) : motive v := by
  refine step v hv fun r hr x hx => ?_
  have hp := (hi r x hx).1
  have hlt := h.owner?_lt hp (h.mem_regionsOf.mp hr)
  have hknown := vertex?_isSome_of_parent? hp
  have hsize := vertex?_isSome_iff.mp hknown
  exact Fits.induction step x hknown
termination_by m.vertices.size - v.index

/-- A walk down the records comes to nothing more when it may take one more level than there are vertices ahead. -/
theorem Fits.eq_succ {α : Type} {f : Nat → VertexId → α} (hf : ∀ n n' v,
      (∀ r ∈ m.regionsOf v, ∀ x, i.current? r = some x → f n x = f n' x) → f (n + 1) v = f (n' + 1) v)
    (height : Nat) (v : VertexId) (hh : m.vertices.size ≤ v.index + height) (hv : (m.vertex? v).isSome) :
    f (height + 1) v = f height v := by
  have hsize := vertex?_isSome_iff.mp hv
  induction height generalizing v with
  | zero => omega
  | succ height ih =>
    refine hf _ _ v fun r hr x hx => ?_
    have hp := (hi r x hx).1
    have hlt := h.owner?_lt hp (h.mem_regionsOf.mp hr)
    have hknown := vertex?_isSome_of_parent? hp
    exact ih x (by omega) hknown (vertex?_isSome_iff.mp hknown)

theorem departuresWithin_succ (height : Nat) (v : VertexId) (hh : m.vertices.size ≤ v.index + height)
    (hv : (m.vertex? v).isSome) : m.departuresWithin i (height + 1) v = m.departuresWithin i height v := by
  refine hi.eq_succ h (f := m.departuresWithin i) (fun n n' v heq => ?_) height v hh hv
  rw [departuresWithin, departuresWithin]
  congr 1
  refine List.flatMap_congr fun r hr => ?_
  cases hx : i.current? r with
  | none => rfl
  | some x => exact heq r hr x hx

theorem departures_eq (hv : (m.vertex? v).isSome) : m.departures i v =
    ((m.regionsOf v).flatMap fun r => (i.current? r).elim [] (m.departures i)) ++ [v] := by
  have hsucc := departuresWithin_succ h hi m.vertices.size v (by omega) hv
  rw [departures, ← hsucc]
  rfl

theorem exits_eq (hv : (m.vertex? v).isSome) : m.exits i v =
    ((m.regionsOf v).flatMap fun r => (i.current? r).elim [] (m.exits i)) ++ (m.exitActions v).map (v, ·) := by
  rw [exits, departures_eq h hi hv, List.flatMap_append, List.flatMap_assoc]
  congr 1
  · refine List.flatMap_congr fun r _ => ?_
    cases i.current? r <;> rfl
  · simp

theorem mem_departures (v : VertexId) (hv : (m.vertex? v).isSome) : w ∈ m.departures i v ↔ m.Reached i v w := by
  refine hi.induction h (motive := fun v => w ∈ m.departures i v ↔ m.Reached i v w) (fun v hv ih => ?_) v hv
  rw [departures_eq h hi hv, List.mem_append, List.mem_singleton, List.mem_flatMap]
  constructor
  · rintro (⟨r, hr, hw⟩ | rfl)
    · cases hx : i.current? r with
      | none => simp [hx] at hw
      | some x => exact .step hr hx ((ih r hr x hx).mp (by simpa [hx] using hw))
    · exact .refl w
  · intro hw
    cases hw with
    | refl => exact Or.inr rfl
    | @step _ x _ r hr hx hw => exact Or.inl ⟨r, hr, by rw [hx]; exact (ih r hr x hx).mpr hw⟩

theorem nodup_departures (v : VertexId) (hv : (m.vertex? v).isSome) : (m.departures i v).Nodup := by
  refine hi.induction h (motive := fun v => (m.departures i v).Nodup) (fun v hv ih => ?_) v hv
  have habove : ∀ {r w}, r ∈ m.regionsOf v → w ∈ (i.current? r).elim [] (m.departures i) → m.Above r w := by
    intro r w hr hw
    cases hx : i.current? r with
    | none => simp [hx] at hw
    | some x =>
      have hp := (hi r x hx).1
      have hknown := vertex?_isSome_of_parent? hp
      rw [hx, Option.elim_some, mem_departures h hi x hknown] at hw
      exact above_of_isAncestor h hp (hw.isAncestor h hi hknown)
  rw [departures_eq h hi hv, List.nodup_append', List.nodup_flatMap]
  refine ⟨⟨fun r hr => ?_, ?_⟩, List.nodup_singleton v, ?_⟩
  · cases hx : i.current? r with
    | none => simp
    | some x => exact ih r hr x hx
  · refine (h.nodup_regionsOf v).pairwise_of_forall_ne fun r hr q hq hne w hw hw' => hne ?_
    exact above_unique h (h.mem_regionsOf.mp hr) (h.mem_regionsOf.mp hq) (habove hr hw) (habove hq hw')
  · intro w hw hw'
    obtain rfl := List.mem_singleton.mp hw'
    obtain ⟨r, hr, hw⟩ := List.mem_flatMap.mp hw
    exact not_above_owner h (h.mem_regionsOf.mp hr) (habove hr hw)

end

end Model

namespace Eval

open Model

variable {m : Model μ δ} {plainly : RegionId → Bool} {c : Context σ} {mode : Mode μ} {trigger : Trigger μ}
variable {vs ws : List VertexId} {run mid run' : Run μ δ σ} {v : VertexId}

/-! ## Going through vertices -/

theorem foldl_tame {actions : List (Action μ δ)} (ha : ∀ a ∈ actions, Action.Tame a) (i : Instance δ) :
    (actions.foldl (fun i a => a trigger i) i).records = i.records ∧
      (actions.foldl (fun i a => a trigger i) i).terminated = i.terminated := by
  induction actions generalizing i with
  | nil => exact ⟨rfl, rfl⟩
  | cons a actions ih =>
    obtain ⟨hrecords, hterminated⟩ := ih (fun a' ha' => ha a' (List.mem_cons_of_mem a ha')) (a trigger i)
    have htame := ha a List.mem_cons_self trigger i
    exact ⟨hrecords.trans htame.1, hterminated.trans htame.2⟩

/-- From one run to the other the vertices have been gone through in this order, and nothing else has happened. -/
structure Goes (walk : Walk μ δ) (vs : List VertexId) (run run' : Run μ δ σ) : Prop where
  inst : run'.inst = vs.foldl walk.visit run.inst
  arrived : run'.arrived = run.arrived
  events : ∃ new, run'.events = new ++ run.events ∧ new.reverse.filter (!walk.aside ·) = vs.flatMap walk.tell

namespace Goes

variable {walk : Walk μ δ} {event : Event μ δ}

theorem refl (run : Run μ δ σ) : Goes walk [] run run := ⟨rfl, rfl, [], rfl, rfl⟩

theorem append (hv : Goes walk vs run mid) (hw : Goes walk ws mid run') : Goes walk (vs ++ ws) run run' := by
  obtain ⟨new, hnew, hevents⟩ := hv.events
  obtain ⟨new', hnew', hevents'⟩ := hw.events
  refine ⟨?_, hw.arrived.trans hv.arrived, new' ++ new, ?_, ?_⟩
  · rw [hw.inst, hv.inst, List.foldl_append]
  · rw [hnew', hnew, List.append_assoc]
  · rw [List.reverse_append, List.filter_append, hevents, hevents', List.flatMap_append]

theorem aside (event : Event μ δ) (he : walk.aside event = true) (run : Run μ δ σ) (s : σ) :
    Goes walk [] run { run.note event with outside := s } :=
  ⟨rfl, rfl, [event], rfl, by simp [he]⟩

theorem visit {cause : Cause} {n : Nat} (htell : walk.tell v = event :: List.replicate n (.acted cause))
    (hannounced : walk.aside event = false) (hacted : walk.aside (.acted cause) = false)
    (hinst : run'.inst = walk.visit run.inst v) (harrived : run'.arrived = run.arrived)
    (hevents : run'.events = List.replicate n (.acted cause) ++ event :: run.events) : Goes walk [v] run run' := by
  refine ⟨hinst, harrived, List.replicate n (.acted cause) ++ [event], by simp [hevents], ?_⟩
  rw [List.flatMap_singleton, htell, List.reverse_append, List.reverse_replicate]
  exact List.filter_eq_self.mpr (by simp [hannounced, hacted])

theorem causes {K : Event μ δ → Prop} {announce : VertexId → Event μ δ} {cause : VertexId → Cause}
    {count : VertexId → Nat} (hg : Goes walk vs run run')
    (htell : ∀ v, walk.tell v = announce v :: List.replicate (count v) (.acted (cause v)))
    (haside : ∀ event, walk.aside event = true → K event ∧ event.cause? = none)
    (hannounce : ∀ v, K (announce v) ∧ (announce v).cause? = none) (hacted : ∀ v, K (.acted (cause v))) :
    ∃ new, run'.events = new ++ run.events ∧ (∀ event ∈ new, K event) ∧
      new.reverse.filterMap (·.cause?) = vs.flatMap fun v => List.replicate (count v) (cause v) := by
  obtain ⟨new, hnew, hevents⟩ := hg.events
  refine ⟨new, hnew, fun event he => ?_, ?_⟩
  · cases ha : walk.aside event with
    | true => exact (haside event ha).1
    | false =>
      have hmem : event ∈ vs.flatMap walk.tell := by
        rw [← hevents]
        exact List.mem_filter.mpr ⟨List.mem_reverse.mpr he, by simp [ha]⟩
      obtain ⟨v, _, hmem⟩ := List.mem_flatMap.mp hmem
      rw [htell] at hmem
      rcases List.mem_cons.mp hmem with rfl | hmem
      · exact (hannounce v).1
      · exact List.eq_of_mem_replicate hmem ▸ hacted v
  · -- What is told aside has no cause, and may be left out.
    have hfilter : (new.reverse.filter (!walk.aside ·)).filterMap (·.cause?) = new.reverse.filterMap (·.cause?) := by
      rw [List.filterMap_filter]
      refine List.filterMap_congr fun event _ => ?_
      cases ha : walk.aside event with
      | true => simp [(haside event ha).2]
      | false => simp
    rw [← hfilter, hevents, List.filterMap_flatMap]
    refine List.flatMap_congr fun v _ => ?_
    rw [htell, List.filterMap_cons_none (hannounce v).2]
    exact List.filterMap_replicate_of_some rfl

end Goes

/-! ## Leaving a list of vertices -/

abbrev Departs (m : Model μ δ) (trigger : Trigger μ) (vs : List VertexId) (run run' : Run μ δ σ) : Prop :=
  Goes (m.exitWalk trigger) vs run run'

theorem foldl_exitWalk (vs : List VertexId) (i : Instance δ) : vs.foldl (m.exitWalk trigger).visit i =
    (vs.flatMap m.exitActions).foldl (fun i a => a trigger i) i := List.foldl_flatMap.symm

namespace Departs

theorem records (ht : m.Tame) (hv : Departs m trigger vs run run') :
    run'.inst.records = run.inst.records ∧ run'.inst.terminated = run.inst.terminated := by
  rw [hv.inst, foldl_exitWalk]
  refine foldl_tame (fun a ha => ?_) run.inst
  obtain ⟨v, _, ha⟩ := List.mem_flatMap.mp ha
  exact (tame_iff.mp ht).exitActions a ha

theorem causes (hv : Departs m trigger vs run run') : ∃ new, run'.events = new ++ run.events ∧
    (∀ event ∈ new, event.IsDeparture) ∧
      new.reverse.filterMap (·.cause?) = vs.flatMap fun v => List.replicate (m.exitCount v) (.exit v) := by
  refine Goes.causes hv (fun v => rfl) (fun event he => ?_) (fun v => ⟨trivial, rfl⟩) fun v => trivial
  cases event with
  | left element => exact ⟨trivial, rfl⟩
  | _ => cases he

end Departs

/-! ## Leaving performs the walk -/

section
variable (h : m.Arena) {i : Instance δ} (hi : m.Fits false i) (ht : m.Tame)
include hi ht

variable (mode) in
theorem exists_departs_regions {rs : List RegionId}
    (hl : ∀ r ∈ rs, ∀ x, i.current? r = some x → ∀ run : Run μ δ σ, run.inst.records = i.records → ∃ run',
      Performs m plainly c { mode with deep := false } (m.leaveVertex x) run run' ∧
        Departs m mode.trigger (m.departures i x) run run')
    (run : Run μ δ σ) (hrun : run.inst.records = i.records) :
    ∃ run', Performs m plainly c mode (rs.flatMap leaveRegion) run run' ∧
      Departs m mode.trigger (rs.flatMap fun r => (i.current? r).elim [] (m.departures i)) run run' := by
  induction rs generalizing run with
  | nil => exact ⟨run, .nil, .refl run⟩
  | cons r rs ih =>
    have hcurrent : run.inst.current? r = i.current? r := by rw [Instance.current?, hrun]; rfl
    obtain ⟨mid, hleave, hdeparts⟩ : ∃ mid, Takes m plainly c mode (.leaveRegion r) run mid ∧
        Departs m mode.trigger ((i.current? r).elim [] (m.departures i)) run mid := by
      cases hx : i.current? r with
      | none => exact ⟨run, takes_leaveRegion_of_none (hcurrent.trans hx), .refl run⟩
      | some x =>
        obtain ⟨mid, hperforms, hdeparts⟩ := hl r List.mem_cons_self x hx run hrun
        exact ⟨mid, takes_leaveRegion (hcurrent.trans hx) (hi.vertex?_isSome hx) hperforms, hdeparts⟩
    have hregion := hdeparts.append (.aside (.left (.region r)) rfl mid
      (c.log (m.qualifiedName (.region r) ++ " leave") mid.outside))
    rw [List.append_nil] at hregion
    obtain ⟨run', hrest, hdeparts'⟩ := ih (fun q hq => hl q (List.mem_cons_of_mem r hq)) _
      ((Departs.records ht hregion).1.trans hrun)
    refine ⟨run', ?_, hregion.append hdeparts'⟩
    exact .append (.cons hleave (.single (takes_announceLeave (.region r)))) hrest

include h

variable (plainly c) in
theorem exists_departs (v : VertexId) (hv : (m.vertex? v).isSome) (mode : Mode μ) (run : Run μ δ σ)
    (hrun : run.inst.records = i.records) : ∃ run', Performs m plainly c mode (m.leaveVertex v) run run' ∧
      Departs m mode.trigger (m.departures i v) run run' := by
  refine hi.induction h (motive := fun v => ∀ (mode : Mode μ) (run : Run μ δ σ), run.inst.records = i.records → ∃ run',
    Performs m plainly c mode (m.leaveVertex v) run run' ∧ Departs m mode.trigger (m.departures i v) run run')
    (fun v hv ih mode run hrun => ?_) v hv mode run hrun
  obtain ⟨mid, hregions, hdeparts⟩ :=
    exists_departs_regions mode hi ht (fun r hr x hx => ih r hr x hx { mode with deep := false }) run hrun
  have hannounce : Takes m plainly c mode (.announceLeave (.vertex v)) mid _ := takes_announceLeave (.vertex v)
  obtain ⟨run', hacts, hinst, harrived, hevents⟩ := exists_acts m plainly c mode (.exit v) (m.exitActions v)
    { mid.note (.left (.vertex v)) with outside := c.log (m.qualifiedName (.vertex v) ++ " leave") mid.outside }
  rw [leaveVertex_eq hv, departures_eq h hi hv]
  rw [length_exitActions] at hevents
  exact ⟨run', hregions.append (.cons hannounce hacts), hdeparts.append (.visit rfl rfl rfl hinst harrived hevents)⟩

end

end Eval

namespace Machine

/-- The steps by which a vertex is left run the exit actions of what is recorded beneath it, region by region, and then
its own. They come to their end, and follow and change nothing on the way. -/
theorem Built.leaves_by_records {m : Machine μ δ} (hm : m.Built) (ht : m.Tame) {p : Program μ δ}
    (hp : m.program = some p) (c : Context σ) (mode : Eval.Mode μ) {run : Run μ δ σ} (hi : m.Fits false run.inst)
    {v : VertexId} (hv : (m.vertex? v).isSome) :
    (∀ w, (m.vertex? w).isSome → m.exits run.inst w =
      ((m.regionsOf w).flatMap fun r => (run.inst.current? r).elim [] (m.exits run.inst)) ++
        (m.exitActions w).map (w, ·)) ∧
    ∃ b run', p.vertex? v = some b ∧ Eval.Settles (fun fuel => Eval.perform m.toModel p c fuel mode b.leave) run run' ∧
      run'.inst.records = run.inst.records ∧ run'.inst.terminated = run.inst.terminated ∧ run'.arrived = run.arrived ∧
      run'.inst = (m.exits run.inst v).foldl (fun i e => e.2 mode.trigger i) run.inst ∧
      ∃ new, run'.events = new ++ run.events ∧ (∀ event ∈ new, event.IsDeparture) ∧
        new.reverse.filterMap (·.cause?) = (m.exits run.inst v).map fun e => .exit e.1 := by
  have h := hm.sound.arena
  obtain rfl := hm.sound.program p hp
  refine ⟨fun w hw => Model.exits_eq h hi hw, m.vertexBehavior m.isEnteredPlainly v, ?_⟩
  obtain ⟨run', hperforms, hdeparts⟩ := Eval.exists_departs m.isEnteredPlainly c h hi ht v hv mode run rfl
  obtain ⟨new, hnew, hall, hcauses⟩ := hdeparts.causes
  obtain ⟨hrecords, hterminated⟩ := hdeparts.records ht
  refine ⟨run', Model.vertex?_compileWith hv, hperforms, hrecords, hterminated, hdeparts.arrived, ?_, new, hnew, hall,
    ?_⟩
  · rw [hdeparts.inst, Model.exits, List.foldl_flatMap]
    simp only [List.foldl_map]
    rfl
  · rw [hcauses, Model.exits, List.map_flatMap]
    refine List.flatMap_congr fun w _ => ?_
    simp [← Model.length_exitActions, Function.comp_def]

def office : Machine String (List String) :=
  ((ofName "m").edited [.addState (.state root) "office", .addRegion ⟨1⟩ "front", .addRegion ⟨1⟩ "back",
    .addState (.region ⟨1⟩) "ann", .addState (.region ⟨2⟩) "bob",
    .onExit ⟨1⟩ fun _ i => { i with data := i.data ++ ["office"] },
    .onExit ⟨2⟩ fun _ i => { i with data := i.data ++ ["ann"] },
    .onExit ⟨3⟩ fun _ i => { i with data := i.data ++ ["bob"] }]).compile

def staffed : Run String (List String) Unit where
  inst := ((({ data := [] } : Instance (List String)).setCurrent ⟨0⟩ ⟨1⟩).setCurrent ⟨1⟩ ⟨2⟩).setCurrent ⟨2⟩ ⟨3⟩
  outside := ()

theorem leaves_by_records_office : ∃ b run', office.toModel.compile.vertex? ⟨1⟩ = some b ∧
    Eval.Settles (fun fuel => Eval.perform office.toModel office.toModel.compile Context.strict fuel
      { trigger := .message "close" } b.leave) staffed run' ∧
    run'.inst.data = ["ann", "bob", "office"] := by
  have hbuilt : office.Built := .compile ((Built.ofName "m").edited _)
  have htame : office.Tame := tame_edited "m" (by simp [Edit.Uses, Action.Tame])
  have hempty : office.Fits false { data := [] } := Model.fits_empty []
  have hfits : office.Fits false staffed.inst :=
    ((hempty.setCurrent (r := ⟨0⟩) (v := ⟨1⟩) (by decide +kernel) (by simp)).setCurrent (r := ⟨1⟩) (v := ⟨2⟩)
      (by decide +kernel) (by simp)).setCurrent (r := ⟨2⟩) (v := ⟨3⟩) (by decide +kernel) (by simp)
  obtain ⟨b, run', hb, hsettles, _, _, _, hinst, _⟩ := (Built.leaves_by_records hbuilt htame rfl Context.strict
    { trigger := .message "close" } hfits (v := ⟨1⟩) (by decide +kernel)).2
  exact ⟨b, run', hb, hsettles, by rw [hinst]; decide +kernel⟩

end Machine

end Statechart
