import Statechart.Proofs.Execution

/-!
# Parts that come to their end

Leaving, and entering by default, come to an end and report nothing, whatever the context says. With enough fuel they
take a run to one and the same run, and all that can keep them from it is that the fuel runs out.
-/

namespace Statechart

variable {μ δ σ : Type}

namespace Eval

open Model

/-- With enough fuel `x` takes one run to the other, and where the fuel does not run out, to no other. -/
structure Settles (x : Nat → Eval μ δ σ Unit) (run run' : Run μ δ σ) : Prop where
  enough : ∃ n, ∀ fuel ≥ n, x fuel run = .ok () run'
  only : ∀ fuel, x fuel run = .ok () run' ∨ ∃ last, x fuel run = .error .outOfFuel last

section
variable {x y : Nat → Eval μ δ σ Unit} {run mid run' : Run μ δ σ}

theorem Settles.const {x : Eval μ δ σ Unit} (hx : x run = .ok () run') : Settles (fun _ => x) run run' :=
  ⟨⟨0, fun _ _ => hx⟩, fun _ => Or.inl hx⟩

theorem Settles.eq_of_ok (hx : Settles x run run') (fuel : Nat) (hok : x fuel run = .ok () mid) : mid = run' := by
  rcases hx.only fuel with heq | ⟨last, heq⟩
  · rw [hok] at heq
    cases heq
    rfl
  · rw [hok] at heq
    cases heq

theorem Settles.bind (hx : Settles x run mid) (hy : Settles y mid run') (used : Nat) :
    Settles (fun fuel => do x fuel; y (fuel - used)) run run' := by
  have hbind : ∀ fuel, x fuel run = .ok () mid → (do x fuel; y (fuel - used)) run = y (fuel - used) mid :=
    fun fuel hok => by
      change EStateM.bind _ _ run = _
      simp only [EStateM.bind, hok]
  obtain ⟨n, hn⟩ := hx.enough
  obtain ⟨n', hn'⟩ := hy.enough
  refine ⟨⟨max n (n' + used), fun fuel hf => ?_⟩, fun fuel => ?_⟩
  · rw [hbind fuel (hn fuel (by omega))]
    exact hn' _ (by omega)
  · rcases hx.only fuel with hok | ⟨last, herror⟩
    · rw [hbind fuel hok]
      exact hy.only _
    · refine Or.inr ⟨last, ?_⟩
      change EStateM.bind _ _ run = _
      simp only [EStateM.bind, herror]

theorem Settles.succ (hy : Settles y mid run') (hzero : x 0 run = .error .outOfFuel run)
    (hsucc : ∀ fuel, x (fuel + 1) run = y fuel mid) : Settles x run run' := by
  obtain ⟨n, hn⟩ := hy.enough
  refine ⟨⟨n + 1, fun fuel hf => ?_⟩, fun fuel => ?_⟩
  · obtain ⟨fuel, rfl⟩ : ∃ k, fuel = k + 1 := ⟨fuel - 1, by omega⟩
    rw [hsucc]
    exact hn fuel (by omega)
  · cases fuel with
    | zero => exact Or.inr ⟨run, hzero⟩
    | succ fuel =>
      rw [hsucc]
      exact hy.only fuel

end

variable {m : Model μ δ} {plainly : RegionId → Bool} {c : Context σ} {mode : Mode μ} {run mid run' : Run μ δ σ}

/-! ## Sequences -/

abbrev Performs (m : Model μ δ) (plainly : RegionId → Bool) (c : Context σ) (mode : Mode μ) (l : List (Step μ δ))
    (run run' : Run μ δ σ) : Prop :=
  Settles (fun fuel => perform m (m.compileWith plainly) c fuel mode l) run run'

abbrev Takes (m : Model μ δ) (plainly : RegionId → Bool) (c : Context σ) (mode : Mode μ) (s : Step μ δ)
    (run run' : Run μ δ σ) : Prop :=
  Settles (fun fuel => performStep m (m.compileWith plainly) c fuel mode s) run run'

namespace Performs

variable {l l₁ l₂ : List (Step μ δ)} {s : Step μ δ}

theorem nil : Performs m plainly c mode [] run run :=
  ⟨⟨0, fun fuel _ => by cases fuel <;> rfl⟩, fun fuel => Or.inl (by cases fuel <;> rfl)⟩

theorem append (h₁ : Performs m plainly c mode l₁ run mid) (h₂ : Performs m plainly c mode l₂ mid run') :
    Performs m plainly c mode (l₁ ++ l₂) run run' := by
  simp only [Performs, perform_append]
  exact h₁.bind h₂ l₁.length

theorem single (hs : Takes m plainly c mode s run run') : Performs m plainly c mode [s] run run' := by
  have hrest : Performs m plainly c mode [] run' run' := nil
  exact (hs.bind hrest 0).succ rfl fun _ => rfl

theorem cons (hs : Takes m plainly c mode s run mid) (hl : Performs m plainly c mode l mid run') :
    Performs m plainly c mode (s :: l) run run' := (single hs).append hl

end Performs

/-! ## Steps -/

theorem takes_announceEnter (element : Element) : Takes m plainly c mode (.announceEnter element) run
    { run.note (.entered element) with outside := c.log (m.qualifiedName element ++ " enter") run.outside } :=
  (Settles.const (x := announceEnter m c element) rfl).succ rfl fun _ => rfl

theorem takes_announceLeave (element : Element) : Takes m plainly c mode (.announceLeave element) run
    { run.note (.left element) with outside := c.log (m.qualifiedName element ++ " leave") run.outside } :=
  (Settles.const (x := announceLeave m c element) rfl).succ rfl fun _ => rfl

theorem takes_act (cause : Cause) (action : Action μ δ) :
    Takes m plainly c mode (.act cause action) run ((run.note (.acted cause)).update (action mode.trigger)) :=
  (Settles.const (x := act mode.trigger cause action) rfl).succ rfl fun _ => rfl

theorem takes_record (r : RegionId) (v : VertexId) :
    Takes m plainly c mode (.record r v) run (run.update (·.setCurrent r v)) :=
  (Settles.const (x := update (·.setCurrent r v)) rfl).succ rfl fun _ => rfl

theorem takes_terminate : Takes m plainly c mode .terminate run (run.update (·.setTerminated true)) :=
  (Settles.const (x := update (·.setTerminated true)) rfl).succ rfl fun _ => rfl

theorem takes_leaveRegion_of_none {r : RegionId} (hr : run.inst.current? r = none) :
    Takes m plainly c mode (.leaveRegion r) run run := by
  refine (Settles.const (x := pure ()) rfl).succ rfl fun fuel => ?_
  simp only [performStep]
  rw [inst_bind_apply, hr]

theorem takes_leaveRegion {r : RegionId} {v : VertexId} (hr : run.inst.current? r = some v)
    (hv : (m.vertex? v).isSome)
    (hl : Performs m plainly c { mode with deep := false } (m.leaveVertex v) run run') :
    Takes m plainly c mode (.leaveRegion r) run run' := by
  refine hl.succ rfl fun fuel => ?_
  simp only [performStep]
  rw [inst_bind_apply, hr]
  simp only [behavior_compileWith hv, pure_bind]
  rfl

def entered? (i : Instance δ) (deep : Bool) (r : RegionId) (initial : Option VertexId) (kind : Option PseudoKind) :
    Option VertexId :=
  (if deep || kind.any (·.isHistory) then i.current? r else none).or initial

theorem takes_enterRegion_of_none {r : RegionId} {initial : Option VertexId} {kind : Option PseudoKind}
    (hv : entered? run.inst mode.deep r initial kind = none) :
    Takes m plainly c mode (.enterRegion r initial kind) run run := by
  refine (Settles.const (x := pure ()) rfl).succ rfl fun fuel => ?_
  simp only [performStep]
  rw [inst_bind_apply, ← entered?, hv]

theorem takes_enterRegion {r : RegionId} {initial : Option VertexId} {kind : Option PseudoKind} {v : VertexId}
    (hv : entered? run.inst mode.deep r initial kind = some v) (hknown : (m.vertex? v).isSome)
    (hbegin : Performs m plainly c { mode with deep := mode.deep || kind == some .deepHistory }
      (m.beginEnterVertex v) run mid)
    (hend : Performs m plainly c { mode with deep := mode.deep || kind == some .deepHistory }
      (m.endEnterVertex plainly v) mid run') :
    Takes m plainly c mode (.enterRegion r initial kind) run run' := by
  refine (hbegin.bind hend 0).succ rfl fun fuel => ?_
  simp only [performStep]
  rw [inst_bind_apply, ← entered?, hv]
  simp only [behavior_compileWith hknown, pure_bind]
  rfl

variable (m plainly c mode) in
theorem exists_acts (cause : Cause) (actions : List (Action μ δ)) (run : Run μ δ σ) :
    ∃ run', Performs m plainly c mode (actions.map (.act cause)) run run' ∧
      run'.inst = actions.foldl (fun i a => a mode.trigger i) run.inst ∧ run'.arrived = run.arrived ∧
      run'.events = List.replicate actions.length (.acted cause) ++ run.events := by
  induction actions generalizing run with
  | nil => exact ⟨run, .nil, rfl, rfl, rfl⟩
  | cons a actions ih =>
    obtain ⟨run', hperforms, hinst, harrived, hevents⟩ := ih ((run.note (.acted cause)).update (a mode.trigger))
    refine ⟨run', .cons (takes_act cause a) hperforms, hinst, harrived, ?_⟩
    rw [hevents, List.length_cons, List.replicate_succ']
    simp

variable (m plainly c mode) in
theorem exists_inert {l : List (Step μ δ)} (hl : ∀ s ∈ l, IsInert s) (run : Run μ δ σ) :
    ∃ run', Performs m plainly c mode l run run' ∧ After l (fun start => start = run) run' := by
  induction l generalizing run with
  | nil => exact ⟨run, .nil, run, rfl, rfl, rfl, rfl, rfl⟩
  | cons s l ih =>
    have hnext : ∃ mid, Takes m plainly c mode s run mid ∧ After [s] (fun start => start = run) mid := by
      have hs := hl s List.mem_cons_self
      cases s with
      | announceEnter element => exact ⟨_, takes_announceEnter element, run, rfl, rfl, rfl, rfl, rfl⟩
      | announceLeave element => exact ⟨_, takes_announceLeave element, run, rfl, rfl, rfl, rfl, rfl⟩
      | act cause action =>
        obtain ⟨hrecords, hterminated⟩ := hs mode.trigger run.inst
        exact ⟨_, takes_act cause action, run, rfl, hrecords, hterminated, rfl, rfl⟩
      | _ => cases hs
    obtain ⟨mid, htakes, hmid⟩ := hnext
    obtain ⟨run', hperforms, start, rfl, hrest⟩ := ih (fun s hs => hl s (List.mem_cons_of_mem _ hs)) mid
    exact ⟨run', .cons htakes hperforms, After.cons ⟨start, hmid, hrest⟩⟩

/-! ## Transitions -/

theorem takes_traverse {t : TransitionId} (hnested : mode.nested = true)
    (hf : Settles (fun fuel => follow m (m.compileWith plainly) c fuel mode.trigger t) run run') :
    Takes m plainly c mode (.traverse t) run run' := by
  have htraverse : Settles (fun fuel => traverse m (m.compileWith plainly) c fuel mode t) run run' := by
    refine hf.succ rfl fun fuel => ?_
    simp only [traverse, hnested]
    exact congrFun (bind_pure _) run
  exact htraverse.succ rfl fun _ => rfl

theorem settles_follow {trigger : Trigger μ} {t : TransitionId} {record : Transition μ δ} {u : VertexId}
    (hrec : m.transition? t = some record) (hu : record.target = some u) (hs : m.isState u = true)
    (hl : Performs m plainly c { trigger, nested := true } ((m.route plainly t).steps run.inst)
      (run.note (.fired t trigger run.inst)) mid) :
    Settles (fun fuel => follow m (m.compileWith plainly) c fuel trigger t) run
      { mid with arrived := mid.arrived ++ [u] } := by
  obtain ⟨reached, content, hv, hf⟩ := isState_iff.mp hs
  have hrest : Settles (fun _ : Nat => (modify fun run => { run with arrived := run.arrived ++ [u] } : Eval μ δ σ Unit))
      mid { mid with arrived := mid.arrived ++ [u] } := .const rfl
  have hroute : (m.compileWith plainly).route? t = some (m.route plainly t) := route?_compileWith (by simp [hrec])
  refine (hl.bind hrest 0).succ rfl fun fuel => ?_
  simp only [follow, hrec, hroute, hu, vertex, hv, pure_bind, hf]
  rfl

theorem settles_follow_of_not_isBranch {trigger : Trigger μ} {t : TransitionId} {record : Transition μ δ}
    {u : VertexId} (hrec : m.transition? t = some record) (hu : record.target = some u) (hv : (m.vertex? u).isSome)
    (hs : m.isState u = false) (hb : m.isBranch u = false)
    (hl : Performs m plainly c { trigger, nested := true } ((m.route plainly t).steps run.inst)
      (run.note (.fired t trigger run.inst)) mid) :
    Settles (fun fuel => follow m (m.compileWith plainly) c fuel trigger t) run mid := by
  obtain ⟨reached, hv⟩ := Option.isSome_iff_exists.mp hv
  cases hf : reached.form with
  | state content =>
    rw [isState_iff.mpr ⟨reached, content, hv, hf⟩] at hs
    cases hs
  | pseudo kind =>
    have hkind : kind.isBranch = false := by simpa [isBranch, hv, Vertex.pseudoKind?, hf] using hb
    have hroute : (m.compileWith plainly).route? t = some (m.route plainly t) := route?_compileWith (by simp [hrec])
    refine (hl.bind (.const (x := pure ()) rfl) 0).succ rfl fun fuel => ?_
    simp only [follow, hrec, hroute, hu, vertex, hv, pure_bind, hf, hkind]
    rfl

end Eval

end Statechart
