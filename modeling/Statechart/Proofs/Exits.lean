import Statechart.Proofs.Execution
import Statechart.Proofs.Session
import Statechart.Validation

/-!
# How often a transition leaves a state

A transition that fires from an active state leaves no state but active ones, and each of them once. Where it leads to
a branch, it goes on from the branch, and what the way on leaves is what is recorded, whether it has been left already
or not. So the exits of a state are counted against the ways on that leave the state or one above it.
-/

namespace Statechart

variable {μ δ σ : Type}

/-! ## Counting exits -/

def Event.leaves (w : VertexId) : Event μ δ → Bool
  | .left (.vertex v) => v = w
  | _ => false

def Event.enters (w : VertexId) : Event μ δ → Bool
  | .entered (.vertex v) => v = w
  | _ => false

def Event.exits (w : VertexId) : Event μ δ → Bool
  | .acted (.exit v) => v = w
  | _ => false

namespace Model

/-- The vertex that the transition leaves before it enters its target, unless it is a local one. -/
def apex? (m : Model μ δ) (record : Transition μ δ) : Option VertexId :=
  record.target.bind fun u => (m.chain record.source)[m.divergence (m.chain record.source) (m.chain u)]?

/-- The transition leads out of a pseudo state and leaves a state for it, `w` or one above `w`. -/
def uproots (m : Model μ δ) (w : VertexId) (t : TransitionId) : Bool :=
  (m.transition? t).any fun record =>
    !m.isState record.source && (m.apex? record).any fun d => m.isState d && m.isAncestor d w

end Model

def Event.uproots (m : Model μ δ) (w : VertexId) : Event μ δ → Bool
  | .fired t _ _ => m.uproots w t
  | _ => false

/-- The state has been left `n` times at most, and once more for each way on that leaves it or a state above it, where
`due` of the exits are still to come. All its exit actions run whenever it is left. -/
structure Exits (m : Model μ δ) (w : VertexId) (due n : Nat) (new : List (Event μ δ)) : Prop where
  leaves : new.countP (·.leaves w) + due ≤ n + new.countP (·.uproots m w)
  exits : new.countP (·.exits w) = m.exitCount w * new.countP (·.leaves w)

structure LeftOnce (m : Model μ δ) (w : VertexId) (P : Prop) (new : List (Event μ δ)) : Prop where
  leaves : new.countP (·.leaves w) ≤ 1
  of_pos : 0 < new.countP (·.leaves w) → P
  exits : new.countP (·.exits w) = m.exitCount w * new.countP (·.leaves w)

def Since (Q : List (Event μ δ) → Prop) (start run : Run μ δ σ) : Prop :=
  ∃ new, run.events = new ++ start.events ∧ Q new

section
variable {m : Model μ δ} {w : VertexId} {P Q : Prop} {new new' : List (Event μ δ)} {due n : Nat}

theorem leftOnce_nil : LeftOnce m w P ([] : List (Event μ δ)) := ⟨by simp, by simp, by simp⟩

theorem LeftOnce.mono (h : LeftOnce m w P new) (hPQ : P → Q) : LeftOnce m w Q new :=
  ⟨h.leaves, fun hn => hPQ (h.of_pos hn), h.exits⟩

theorem LeftOnce.append (h : LeftOnce m w P new) (h' : LeftOnce m w Q new') (hPQ : P → ¬ Q) :
    LeftOnce m w (P ∨ Q) (new' ++ new) where
  leaves := by
    have hone := h.leaves
    have hone' := h'.leaves
    rw [List.countP_append]
    rcases Nat.eq_zero_or_pos (new.countP (·.leaves w)) with hzero | hpos
    · omega
    · have hzero : ¬ 0 < new'.countP (·.leaves w) := fun hpos' => hPQ (h.of_pos hpos) (h'.of_pos hpos')
      omega
  of_pos hn := by
    rw [List.countP_append] at hn
    rcases Nat.eq_zero_or_pos (new.countP (·.leaves w)) with hzero | hpos
    · exact Or.inr (h'.of_pos (by omega))
    · exact Or.inl (h.of_pos hpos)
  exits := by rw [List.countP_append, List.countP_append, h.exits, h'.exits, Nat.mul_add]

theorem LeftOnce.quiet (h : LeftOnce m w P new) {event : Event μ δ} (hl : event.leaves w = false)
    (he : event.exits w = false) : LeftOnce m w P (event :: new) where
  leaves := by simpa [List.countP_cons, hl] using h.leaves
  of_pos := by simpa [List.countP_cons, hl] using h.of_pos
  exits := by simpa [List.countP_cons, hl, he] using h.exits

theorem Exits.quiet (h : Exits m w due n new) {event : Event μ δ} (hl : event.leaves w = false)
    (he : event.exits w = false) : Exits m w due n (event :: new) where
  leaves := by
    have hle := h.leaves
    simp only [List.countP_cons, hl, Bool.false_eq_true, ite_false]
    omega
  exits := by simpa [List.countP_cons, hl, he] using h.exits

theorem Exits.fired (h : Exits m w 0 n new) (t : TransitionId) (trigger : Trigger μ) (before : Instance δ) :
    Exits m w (if m.uproots w t then 1 else 0) n (.fired t trigger before :: new) where
  leaves := by
    have hle := h.leaves
    have hleaves : (Event.fired t trigger before).leaves w = false := rfl
    have huproots : (Event.fired t trigger before).uproots m w = m.uproots w t := rfl
    simp only [List.countP_cons, hleaves, huproots, Bool.false_eq_true, ite_false]
    omega
  exits := by simpa [List.countP_cons, Event.leaves, Event.exits] using h.exits

theorem Exits.append (h : Exits m w due n new) (h' : LeftOnce m w P new') (hP : P → 1 ≤ due) :
    Exits m w 0 n (new' ++ new) where
  leaves := by
    have hle := h.leaves
    have hone := h'.leaves
    rw [List.countP_append, List.countP_append]
    rcases Nat.eq_zero_or_pos (new'.countP (·.leaves w)) with hzero | hpos
    · omega
    · have hdue := hP (h'.of_pos hpos)
      omega
  exits := by rw [List.countP_append, List.countP_append, h.exits, h'.exits, Nat.mul_add]

end

section
variable {Q R : List (Event μ δ) → Prop} {start run run' : Run μ δ σ}

theorem Since.refl (hQ : Q []) : Since Q start start := ⟨[], rfl, hQ⟩

theorem Since.cons (h : Since Q start run) {event : Event μ δ} (hQ : ∀ new, Q new → R (event :: new))
    (hevents : run'.events = event :: run.events) : Since R start run' := by
  obtain ⟨new, hnew, hq⟩ := h
  exact ⟨event :: new, by rw [hevents, hnew]; rfl, hQ new hq⟩

theorem Since.trans {S : List (Event μ δ) → Prop} (h : Since Q start run) (h' : Since R run run')
    (hS : ∀ new new', Q new → R new' → S (new' ++ new)) : Since S start run' := by
  obtain ⟨new, hnew, hq⟩ := h
  obtain ⟨new', hnew', hr⟩ := h'
  exact ⟨new' ++ new, by rw [hnew', hnew, List.append_assoc], hS new new' hq hr⟩

end

namespace Model

variable {m : Model μ δ} {i : Instance δ} {v w x : VertexId} {r : RegionId}

/-! ## What is recorded beneath a vertex -/

inductive Reached (m : Model μ δ) (i : Instance δ) : VertexId → VertexId → Prop
  | refl (v : VertexId) : Reached m i v v
  | step {v x w : VertexId} {r : RegionId} (hr : r ∈ m.regionsOf v) (hx : i.current? r = some x)
      (hw : Reached m i x w) : Reached m i v w

def Through (m : Model μ δ) (i : Instance δ) (w : VertexId) (r : RegionId) : Prop :=
  ∃ x, i.current? r = some x ∧ m.Reached i x w

theorem eq_of_reached (hv : m.isState v = false) (hw : m.Reached i v w) : w = v := by
  cases hw with
  | refl => rfl
  | step hr _ _ =>
    rw [isState_of_mem_regionsOf hr] at hv
    cases hv

section
variable (h : m.Arena) (hi : m.Fits false i)
include h hi

theorem Reached.isAncestor (hw : m.Reached i v w) (hv : (m.vertex? v).isSome) : m.isAncestor v w = true := by
  induction hw with
  | refl v => exact isAncestor_refl h hv
  | @step v x w r hr hx _ ih =>
    have hp := (hi r x hx).1
    have hchain := chain_eq h hp (h.mem_regionsOf.mp hr)
    have hknown := vertex?_isSome_of_parent? hp
    have hvx : m.isAncestor v x = true :=
      (isAncestor_iff h hknown).mpr (hchain ▸ List.mem_append_left _ (mem_chain_self h v hv))
    exact isAncestor_trans h hvx (ih hknown)

theorem Reached.isActive (hw : m.Reached i v w) (hv : m.isActive i v = true) : m.isActive i w = true := by
  induction hw with
  | refl v => exact hv
  | step hr hx _ ih => exact ih ((isActive_step h (hi _ _ hx).1 (h.mem_regionsOf.mp hr)).mpr ⟨hx, hv⟩)

theorem Through.above (hw : m.Through i w r) : m.Above r w := by
  obtain ⟨x, hx, hw⟩ := hw
  have hp := (hi r x hx).1
  exact above_of_isAncestor h hp (hw.isAncestor h hi (vertex?_isSome_of_parent? hp))

end

end Model

namespace Eval

open Model

variable {m : Model μ δ} {plainly : RegionId → Bool} {c : Context σ} {w : VertexId} {i : Instance δ}
variable {start : Run μ δ σ} {mode : Mode μ} {n : Nat} {P Q : Prop} {l : List (Step μ δ)}

/-! ## Leaving vertices -/

def Left (m : Model μ δ) (w : VertexId) (i : Instance δ) (P : Prop) (start run : Run μ δ σ) : Prop :=
  run.inst.records = i.records ∧ Since (LeftOnce m w P) start run

theorem Left.congr (hP : P ↔ Q) {run : Run μ δ σ} (hr : Left m w i P start run) : Left m w i Q start run := by
  rwa [show P = Q from propext hP] at hr

/-- Performed from wherever the records are those of `i`, the steps leave the state once at most, and only if `P`. -/
def Clears (m : Model μ δ) (plainly : RegionId → Bool) (c : Context σ) (w : VertexId) (i : Instance δ) (n : Nat)
    (mode : Mode μ) (P : Prop) (l : List (Step μ δ)) : Prop :=
  ∀ start, Does m (m.compileWith plainly) c (fun _ _ => True) n mode
    (fun run => run = start ∧ run.inst.records = i.records) l (Left m w i P start)

theorem Clears.after (hl : Clears m plainly c w i n mode Q l) (hPQ : P → ¬ Q) :
    Does m (m.compileWith plainly) c (fun _ _ => True) n mode (Left m w i P start) l (Left m w i (P ∨ Q) start) := by
  intro fuel hf
  refine Triple.assume fun run hr => ?_
  refine (hl run fuel hf).conseq (fun run' heq => ⟨heq, heq ▸ hr.1⟩) (fun _ run' hr' => ?_) fun _ _ h => h
  exact ⟨hr'.1, hr.2.trans hr'.2 fun new new' hnew hnew' => hnew.append hnew' hPQ⟩

theorem Clears.append {l' : List (Step μ δ)} (hl : Clears m plainly c w i n mode P l)
    (hl' : Clears m plainly c w i n mode Q l') (hPQ : P → ¬ Q) : Clears m plainly c w i n mode (P ∨ Q) (l ++ l') :=
  fun start => (hl start).append (hl'.after hPQ)

theorem Clears.congr (hl : Clears m plainly c w i n mode P l) (hPQ : P ↔ Q) : Clears m plainly c w i n mode Q l :=
  fun start => (hl start).post fun _ hr => hr.congr hPQ

theorem Clears.of_first (hl : ∀ start, Does m (m.compileWith plainly) c (fun _ _ => True) n mode
    (Left m w i False start) l (Left m w i P start)) : Clears m plainly c w i n mode P l := fun start =>
  (hl start).pre fun _ hr => hr.1 ▸ ⟨hr.2, Since.refl leftOnce_nil⟩

section
variable (hA : m.Acts Action.KeepsRecords)

theorem does_acts {p : Program μ δ} {cause : Cause} {actions : List (Action μ δ)}
    (ha : ∀ a ∈ actions, a.KeepsRecords) {events : List (Event μ δ)} :
    Does m p c (fun _ _ => True) n mode (fun run => run.inst.records = i.records ∧ run.events = events)
      (actions.map (.act cause))
      (fun run => run.inst.records = i.records ∧
        run.events = List.replicate actions.length (.acted cause) ++ events) := by
  induction actions generalizing events with
  | nil => exact .nil fun _ hr => hr
  | cons a actions ih =>
    refine .cons (R := fun run => run.inst.records = i.records ∧ run.events = .acted cause :: events)
      (fun _ _ => trivial) (fun fuel _ => ?_) ?_
    · refine triple_act (fun _ _ => trivial) fun run hr => ⟨?_, by rw [Run.events_update, Run.events_note, hr.2]⟩
      exact (ha a List.mem_cons_self _ _).trans hr.1
    · refine (ih fun a ha' => ha a (List.mem_cons_of_mem _ ha')).post fun run hr => ⟨hr.1, ?_⟩
      rw [hr.2, List.length_cons, List.replicate_succ']
      simp

theorem clears_announceRegion (r : RegionId) : Clears m plainly c w i n mode False [.announceLeave (.region r)] :=
  .of_first fun _ => .single (fun _ _ => trivial) fun _ _ => triple_announceLeave (fun _ _ => trivial)
    fun _ _ hr => ⟨hr.1, hr.2.cons (fun _ hnew => hnew.quiet rfl rfl) rfl⟩

include hA in
theorem clears_exit {v : VertexId} {record : Vertex μ δ} {content : State μ δ} (hrec : m.vertex? v = some record)
    (hf : record.form = .state content) :
    Clears m plainly c w i n mode (v = w) (.announceLeave (.vertex v) :: content.exit.map (.act (.exit v))) := by
  intro start
  have hcount : content.exit.length = m.exitCount v := by simp [exitCount, hrec, Vertex.state?, hf]
  refine .cons (R := fun run => run.inst.records = i.records ∧ run.events = .left (.vertex v) :: start.events)
    (fun _ _ => trivial) (fun fuel _ => ?_) ?_
  · refine triple_announceLeave (fun _ _ => trivial) fun run _ hr => ?_
    obtain ⟨rfl, hr⟩ := hr
    exact ⟨hr, rfl⟩
  · refine (does_acts fun a ha => hA.exit hrec hf a ha).post fun run hr => ⟨hr.1, ?_⟩
    refine ⟨List.replicate content.exit.length (.acted (.exit v)) ++ [.left (.vertex v)], by simp [hr.2], ?_⟩
    by_cases hv : v = w
    · subst hv
      constructor <;> simp [List.countP_replicate, Event.leaves, Event.exits, hcount]
    · constructor <;> simp [List.countP_replicate, Event.leaves, Event.exits, hv]

omit hA in
theorem clears_leaveRegion {r : RegionId} (hl : ∀ k < n, ∀ mode x, Clears m plainly c w i k mode (m.Reached i x w)
    (m.leaveVertex x)) : Clears m plainly c w i n mode (m.Through i w r) (leaveRegion r) := by
  refine Clears.congr (P := m.Through i w r ∨ False) (.append (l := [.leaveRegion r]) (fun start => ?_)
    (clears_announceRegion r) (by simp)) (by simp)
  refine .single (fun _ _ => trivial) fun fuel hf => ?_
  refine triple_leaveRegion (fun _ _ => trivial) (fun _ _ _ _ _ => trivial) (fun run hr _ => ?_) fun x k hk => ?_
  · obtain ⟨rfl, hr⟩ := hr
    exact ⟨hr, Since.refl leftOnce_nil⟩
  · refine Triple.assume fun run hr => ?_
    obtain ⟨⟨rfl, hrecords⟩, hx⟩ := hr
    have hthrough : m.Reached i x w → m.Through i w r := fun hw => ⟨x, by rwa [Instance.current?, ← hrecords], hw⟩
    refine (hl k (by omega) _ x run k (Nat.le_refl k)).conseq (fun run' heq => ⟨heq, heq ▸ hrecords⟩)
      (fun _ run' hr' => ⟨hr'.1, ?_⟩) fun _ _ h => h
    obtain ⟨new, hnew, hleft⟩ := hr'.2
    exact ⟨new, hnew, hleft.mono hthrough⟩

section
variable (h : m.Arena) (hi : m.Fits false i)
include h hi

omit hA in
theorem clears_regions {v : VertexId} (hl : ∀ r ∈ m.regionsOf v, Clears m plainly c w i n mode (m.Through i w r)
    (leaveRegion r)) : Clears m plainly c w i n mode (∃ r ∈ m.regionsOf v, m.Through i w r)
      ((m.regionsOf v).flatMap leaveRegion) := by
  refine .of_first fun start => ?_
  refine (Does.flatMap (I := fun rest => Left m w i (∃ r ∈ m.regionsOf v, r ∉ rest ∧ m.Through i w r) start)
    (m.regionsOf v) fun done r rest hsplit => ?_).conseq (fun run hr => ?_) fun run hr => hr.congr (by simp)
  · have hnodup := h.nodup_regionsOf v
    have hr : r ∈ m.regionsOf v := by simp [← hsplit]
    rw [← hsplit, List.nodup_append, List.nodup_cons] at hnodup
    refine ((hl r hr).after ?_).post fun run hrun => hrun.congr ⟨?_, ?_⟩
    · rintro ⟨q, hq, hne, hqw⟩ hrw
      have heq := above_unique h (h.mem_regionsOf.mp hq) (h.mem_regionsOf.mp hr) (hqw.above h hi) (hrw.above h hi)
      exact hne (heq ▸ List.mem_cons_self)
    · rintro (⟨q, hq, hne, hqw⟩ | hrw)
      · exact ⟨q, hq, fun hmem => hne (List.mem_cons_of_mem r hmem), hqw⟩
      · exact ⟨r, hr, hnodup.2.1.1, hrw⟩
    · rintro ⟨q, hq, hne, hqw⟩
      by_cases hqr : q = r
      · exact Or.inr (hqr ▸ hqw)
      · exact Or.inl ⟨q, hq, by simp [hqr, hne], hqw⟩
  · exact hr.congr ⟨False.elim, fun ⟨q, hq, hne, _⟩ => hne hq⟩

include hA in
theorem clears_leaveVertex (n : Nat) (mode : Mode μ) (v : VertexId) :
    Clears m plainly c w i n mode (m.Reached i v w) (m.leaveVertex v) := by
  -- To leave a region takes one from the fuel, so what it records is left by the induction hypothesis.
  induction n using Nat.strongRecOn generalizing mode v with
  | ind n ih =>
  cases hrec : m.vertex? v with
  | none =>
    have hnil : m.leaveVertex v = [] := by simp [leaveVertex, hrec]
    rw [hnil]
    exact fun start => .nil fun run hr => ⟨hr.2, hr.1 ▸ Since.refl leftOnce_nil⟩
  | some record =>
    cases hf : record.form with
    | pseudo kind =>
      have hcount : m.exitCount v = 0 := by simp [exitCount, hrec, Vertex.state?, hf]
      have hleave : m.leaveVertex v = [.announceLeave (.vertex v)] := by simp [leaveVertex, hrec, hf]
      rw [hleave]
      refine fun start => .single (fun _ _ => trivial) fun fuel _ => triple_announceLeave (fun _ _ => trivial) ?_
      rintro run s ⟨rfl, hr⟩
      refine ⟨hr, [.left (.vertex v)], rfl, ?_⟩
      by_cases hv : v = w
      · subst hv
        exact ⟨by simp [Event.leaves], fun _ => .refl v, by simp [Event.leaves, Event.exits, hcount]⟩
      · constructor <;> simp [Event.leaves, Event.exits, hv]
    | state content =>
      have hregions : m.regionsOf v = content.regions := by simp [regionsOf, hrec, Vertex.regions, hf]
      have hleave : m.leaveVertex v = (m.regionsOf v).flatMap leaveRegion ++
          .announceLeave (.vertex v) :: content.exit.map (.act (.exit v)) := by
        simp [leaveVertex, hrec, hf, hregions]
      rw [hleave]
      -- A state is not beneath itself, so the regions and the state do not both leave `w`.
      refine Clears.congr (.append (clears_regions h hi fun r _ => clears_leaveRegion fun k hk => ih k hk)
        (clears_exit hA hrec hf) ?_) ⟨?_, ?_⟩
      · rintro ⟨r, hr, hw⟩ rfl
        exact not_above_owner h (h.mem_regionsOf.mp hr) (hw.above h hi)
      · rintro (⟨r, hr, x, hx, hw⟩ | rfl)
        · exact .step hr hx hw
        · exact .refl v
      · intro hw
        cases hw with
        | refl => exact Or.inr rfl
        | step hr hx hw => exact Or.inl ⟨_, hr, _, hx, hw⟩

end

end

/-! ## Following transitions -/

def Budgeted (m : Model μ δ) (w : VertexId) (due n : Nat) (start run : Run μ δ σ) : Prop :=
  m.Fits false run.inst ∧ Since (Exits m w due n) start run

section
variable {due : Nat} {trigger : Trigger μ}

theorem Budgeted.quiet {run run' : Run μ δ σ} (hr : Budgeted m w due n start run) (event : Event μ δ)
    (hl : event.leaves w = false) (he : event.exits w = false) (hrecords : run'.inst.records = run.inst.records)
    (hevents : run'.events = event :: run.events) : Budgeted m w due n start run' :=
  ⟨hr.1.congr hrecords, hr.2.cons (fun _ hnew => hnew.quiet hl he) hevents⟩

theorem aloof_budgeted : Aloof (Budgeted m w due n start) := by
  intro run event s he hr
  cases event with
  | drew | reported => exact hr.quiet _ rfl rfl rfl rfl
  | _ => exact he.elim

theorem Clears.budgets {k : Nat} (hl : Clears m plainly c w i k mode P l) (hP : P → 1 ≤ due) :
    Does m (m.compileWith plainly) c (fun _ _ => True) k mode
      (fun run => Budgeted m w due n start run ∧ run.inst = i) l (Budgeted m w 0 n start) := by
  intro fuel hf
  refine Triple.assume fun run hr => ?_
  obtain ⟨⟨hfits, hsince⟩, rfl⟩ := hr
  refine (hl run fuel hf).conseq (fun run' heq => ⟨heq, by rw [heq]⟩) (fun _ run' hr' => ?_) fun _ _ h => h
  exact ⟨hfits.congr hr'.1, hsince.trans hr'.2 fun new new' hnew hnew' => hnew.append hnew' hP⟩

/-- With this much fuel, what is entered, and what transitions out of pseudo states do, keeps to the account. -/
structure Budgets (m : Model μ δ) (plainly : RegionId → Bool) (c : Context σ) (w : VertexId) (n : Nat)
    (trigger : Trigger μ) (start : Run μ δ σ) (k : Nat) : Prop where
  perform : ∀ deep l, (∀ s ∈ l, m.Arriving (fun _ => True) s) → Triple (Budgeted m w 0 n start)
    (perform m (m.compileWith plainly) c k { trigger, nested := true, deep } l) (fun _ => Budgeted m w 0 n start)
    fun _ _ => True
  follow : ∀ t record, m.transition? t = some record → m.isState record.source = false → Triple (Budgeted m w 0 n start)
    (follow m (m.compileWith plainly) c k trigger t) (fun _ => Budgeted m w 0 n start) fun _ _ => True

section
variable (h : m.Arena) (hA : m.Acts Action.KeepsRecords) {k : Nat}
variable (ih : ∀ j < k, Budgets m plainly c w n trigger start j)
include h hA ih

theorem triple_budgeted_step (deep : Bool) {s : Step μ δ} (hs : m.Arriving (fun _ => True) s) :
    Triple (Budgeted m w 0 n start) (performStep m (m.compileWith plainly) c k { trigger, nested := true, deep } s)
      (fun _ => Budgeted m w 0 n start) fun _ _ => True := by
  have hE : ∀ run, Budgeted m w 0 n start run → True := fun _ _ => trivial
  cases hs with
  | begin hs =>
    cases hs with
    | @announce v => exact triple_announceEnter hE fun run _ hr => hr.quiet (.entered (.vertex v)) rfl rfl rfl rfl
    | @act v a ha =>
      refine triple_act hE fun run hr => hr.quiet (.acted (.entry v)) rfl rfl ?_ rfl
      exact hA.entryActions a ha trigger run.inst
    | record _ _ hp => exact triple_record hE fun run hr => ⟨hr.1.setCurrent hp (by simp), hr.2⟩
    | terminate => exact triple_terminate hE fun run hr => ⟨hr.1.congr rfl, hr.2⟩
  | region r => exact triple_announceEnter hE fun run _ hr => hr.quiet (.entered (.region r)) rfl rfl rfl rfl
  | enter =>
    refine triple_enterRegion_either (R := Budgeted m w 0 n start) (W := fun _ => True) hE (fun _ _ _ _ _ => trivial)
      (fun _ _ hr => hr) (fun _ _ _ _ => trivial) (fun _ _ => trivial) (fun deep v _ j hj => ?_)
      fun deep v _ j hj => ?_
    · exact (ih j hj).perform deep _ fun s hs => .begin (beginning_beginEnterVertex trivial s hs)
    · exact (ih j hj).perform deep _ (arriving_endEnterVertex h (fun _ _ _ => trivial) trivial)
  | traverse _ hi ht =>
    obtain ⟨record, hrec, rfl⟩ := h.source_of_mem_outgoing ht
    refine triple_traverseStep hE fun j hj => triple_traverse hE (fun i hi' => ?_) (fun _ _ hr => hr) nofun
    exact (ih i (by omega)).follow _ record hrec (isState_eq_false_of_isInitial hi)
  | @act t record a hrec ha =>
    refine triple_act hE fun run hr => hr.quiet (.acted (.effect t)) rfl rfl ?_ rfl
    exact hA.effect hrec a ha trigger run.inst

omit hA in
theorem does_leave {before : List (Step μ δ)} (hl : ∀ j, Clears m plainly c w i j { trigger, nested := true } P before)
    (hP : P → 1 ≤ due) (t : TransitionId) (chain : List VertexId) (u : VertexId) {j : Nat} (hj : j < k) :
    Does m (m.compileWith plainly) c (fun _ _ => True) j { trigger, nested := true }
      (fun run => Budgeted m w due n start run ∧ run.inst = i) (before ++ m.arrival plainly t chain u)
      (Budgeted m w 0 n start) :=
  ((hl j).budgets hP).append fun fuel hf =>
    (ih fuel (by omega)).perform false _
      (arriving_arrival h (fun _ _ _ => trivial) t (fun _ _ => trivial) trivial)

omit h hA in
theorem does_effects (t : TransitionId) {j : Nat} (hj : j < k) :
    Does m (m.compileWith plainly) c (fun _ _ => True) j { trigger, nested := true }
      (fun run => Budgeted m w due n start run ∧ run.inst = i) (m.effectsOf t) (Budgeted m w 0 n start) := by
  intro fuel hf
  refine ((ih fuel (by omega)).perform false _ (arriving_effectsOf t)).pre fun run hr => ⟨hr.1.1, ?_⟩
  obtain ⟨new, hnew, hexits⟩ := hr.1.2
  exact ⟨new, hnew, by have hle := hexits.leaves; omega, hexits.exits⟩

omit hA in
theorem triple_budgeted_follow (due : Nat) {S : Run μ δ σ → Prop} {t : TransitionId} {record : Transition μ δ}
    (hrec : m.transition? t = some record) {I : Instance δ → Prop}
    (hnote : ∀ run, S run → Budgeted m w due n start (run.note (.fired t trigger run.inst)) ∧ I run.inst)
    (hsteps : ∀ i, I i → ∀ j < k, Does m (m.compileWith plainly) c (fun _ _ => True) j { trigger, nested := true }
      (fun run => Budgeted m w due n start run ∧ run.inst = i) ((m.route plainly t).steps i) (Budgeted m w 0 n start)) :
    Triple S (follow m (m.compileWith plainly) c k trigger t) (fun _ => Budgeted m w 0 n start) fun _ _ => True := by
  refine triple_follow (T := fun run => Budgeted m w due n start run ∧ I run.inst) (R := Budgeted m w 0 n start)
    (fun _ _ => trivial) hrec (route?_compileWith (by simp [hrec])) hnote aloof_budgeted (fun i j hj => ?_)
    (fun _ _ hr => hr) (fun _ _ _ _ _ => trivial) (fun _ _ _ _ hr => hr) (fun _ _ _ _ _ hr => hr)
    (fun u _ hbranch next hnext j hj => ?_) (fun _ _ _ _ _ _ => trivial) fun _ _ _ _ _ hr => hr
  · refine Triple.assume fun run hr => ?_
    obtain ⟨⟨hr, hI⟩, rfl⟩ := hr
    exact (hsteps run.inst hI j hj j (Nat.le_refl j)).start ⟨hr, rfl⟩
  · obtain ⟨record', hrec', hsource⟩ := h.source_of_mem_outgoing hnext
    refine (ih j hj).follow next record' hrec' (Bool.eq_false_iff.mpr fun hs => ?_)
    rw [hsource] at hs
    rw [isBranch_of_isState hs] at hbranch
    cases hbranch

theorem triple_budgeted_onwards (hw : m.isState w = true) {t : TransitionId} {record : Transition μ δ}
    (hrec : m.transition? t = some record) (hs : m.isState record.source = false) : Triple (Budgeted m w 0 n start)
    (follow m (m.compileWith plainly) c k trigger t) (fun _ => Budgeted m w 0 n start) fun _ _ => True := by
  refine triple_budgeted_follow h ih (if m.uproots w t then 1 else 0) hrec (I := m.Fits false)
    (fun run hr => ⟨⟨hr.1, hr.2.cons (fun _ hnew => hnew.fired t trigger run.inst) rfl⟩, hr.1⟩) fun i hi j hj => ?_
  cases hu : record.target with
  | none =>
    rw [steps_internal hrec hu]
    exact does_effects ih t hj
  | some u =>
    have huknown := h.target_isSome hrec hu
    obtain ⟨d, e, rest, hd, _, _, hsteps⟩ := @steps_direct _ _ m plainly t record u hrec hu
      (not_isLocal_of_not_isState h hs huknown) i
    have hdknown := vertex?_isSome_of_mem_chain h _ (h.source_isSome hrec) (List.mem_of_getElem? hd)
    rw [hsteps]
    refine does_leave h ih (fun j => clears_leaveVertex hA h hi j _ d) (fun hreached => ?_) t _ u hj
    have hup : m.uproots w t = true := by
      cases hstate : m.isState d with
      | false => rw [eq_of_reached hstate hreached, hstate] at hw; cases hw
      | true => simp [uproots, apex?, hrec, hs, hu, hd, hstate, hreached.isAncestor h hi hdknown]
    simp [hup]

end

theorem budgets (h : m.Arena) (hA : m.Acts Action.KeepsRecords) (hw : m.isState w = true) (k : Nat) :
    Budgets m plainly c w n trigger start k := by
  induction k using Nat.strongRecOn with
  | ind k ih =>
  refine ⟨fun deep l hl => ?_, fun t record hrec hsource => triple_budgeted_onwards h hA ih hw hrec hsource⟩
  have hsteps : Does m (m.compileWith plainly) c (fun _ _ => True) k { trigger, nested := true, deep }
      (Budgeted m w 0 n start) l (Budgeted m w 0 n start) :=
    Does.keeps (fun _ _ => trivial) fun s hs j hj =>
      triple_budgeted_step h hA (fun i hi => ih i (by omega)) deep (hl s hs)
  exact hsteps k (Nat.le_refl k)

theorem triple_budgeted_active (h : m.Arena) (hA : m.Acts Action.KeepsRecords) (hw : m.isState w = true) (k : Nat)
    {t : TransitionId} {record : Transition μ δ} (hrec : m.transition? t = some record)
    (hi : m.Fits false start.inst) (ha : m.isActive start.inst record.source = true) : Triple (fun run => run = start)
      (follow m (m.compileWith plainly) c k trigger t)
      (fun _ => Budgeted m w 0 (if m.isActive start.inst w then 1 else 0) start) fun _ _ => True := by
  have hdue : m.isActive start.inst w = true → 1 ≤ if m.isActive start.inst w then 1 else 0 := fun hactive => by
    simp [hactive]
  have hsource := h.source_isSome hrec
  refine triple_budgeted_follow h (fun j _ => budgets h hA hw j) (if m.isActive start.inst w then 1 else 0) hrec
    (I := fun i => i = start.inst) (fun run hr => ?_) fun i hi' j hj => ?_
  · subst hr
    refine ⟨⟨hi, [.fired t trigger run.inst], rfl, ?_, by simp [Event.exits, Event.leaves]⟩, rfl⟩
    simp [Event.leaves]
  · subst hi'
    cases hu : record.target with
    | none =>
      rw [steps_internal hrec hu]
      exact does_effects (fun j _ => budgets h hA hw j) t hj
    | some u =>
      have huknown := h.target_isSome hrec hu
      -- Whatever is left first is active, and so is what the records lead down to from there; that is the one exit due.
      by_cases hlocal : m.IsLocal record u
      · obtain ⟨l, e, rest, r, hbelow, hp, hsteps, hrecorded⟩ :=
          @steps_local _ _ m plainly t record u hrec h hu hlocal start.inst
        rw [hsteps]
        refine does_leave h (fun j _ => budgets h hA hw j) (fun j => clears_leaveRegion fun k _ mode x =>
          clears_leaveVertex hA h hi k mode x) (fun hthrough => hdue ?_) t _ u hj
        obtain ⟨x, hx, hreached⟩ := hthrough
        obtain ⟨o, ho, hactive, _⟩ := exists_landing h hlocal huknown ha hbelow hp hrecorded
        exact hreached.isActive h hi ((isActive_step h (hi r x hx).1 ho).mpr ⟨hx, hactive⟩)
      · obtain ⟨d, e, rest, hd, _, _, hsteps⟩ := @steps_direct _ _ m plainly t record u hrec hu hlocal start.inst
        rw [hsteps]
        refine does_leave h (fun j _ => budgets h hA hw j) (fun j => clears_leaveVertex hA h hi j _ d)
          (fun hreached => hdue ?_) t _ u hj
        exact hreached.isActive h hi (isActive_of_mem_chain h hsource ha (List.mem_of_getElem? hd))

end

end Eval

namespace Machine

/-- Followed from an active vertex to its end, a transition leaves a state once if it was active, and besides that once
at most for each way on that uproots it. All exit actions of a state run whenever it is left, and at no other time. -/
theorem Built.exits_le {m : Machine μ δ} (hm : m.Built) (hA : m.Acts Action.KeepsRecords) (c : Context σ) (fuel : Nat)
    (trigger : Trigger μ) {t : TransitionId} {record : Transition μ δ} (hrec : m.transition? t = some record)
    {run run' : Run μ δ σ} (hi : m.Fits false run.inst) (ha : m.isActive run.inst record.source = true)
    (hf : Eval.follow m.toModel m.toModel.compile c fuel trigger t run = .ok () run') :
    ∃ new, run'.events = new ++ run.events ∧ ∀ w, m.isState w = true →
      new.countP (·.leaves w) ≤ (if m.isActive run.inst w then 1 else 0) + new.countP (·.uproots m.toModel w) ∧
      new.countP (·.exits w) = m.exitCount w * new.countP (·.leaves w) := by
  have h := hm.sound.arena
  have hbudgeted : ∀ w, m.isState w = true →
      Since (Exits m.toModel w 0 (if m.isActive run.inst w then 1 else 0)) run run' := fun w hw =>
    ((Eval.triple_budgeted_active h hA hw fuel hrec hi ha).of_ok rfl hf).2
  obtain ⟨new, hnew, _⟩ := hbudgeted root h.isState_root
  refine ⟨new, hnew, fun w hw => ?_⟩
  obtain ⟨new', hnew', hexits⟩ := hbudgeted w hw
  obtain rfl : new = new' := List.append_cancel_right (hnew.symm.trans hnew')
  exact ⟨hexits.leaves, hexits.exits⟩

/-- The way out of the composite state starts at a junction within it. -/
def shortcut : Machine String Unit := (ofName "m").edited
  [.addState (.state root) "c", .addPseudoState (.region ⟨0⟩) "start" .initial, .addTransition (.between ⟨2⟩ ⟨1⟩),
    .addState (.state ⟨1⟩) "a", .addPseudoState (.region ⟨1⟩) "start" .initial, .addTransition (.between ⟨4⟩ ⟨3⟩),
    .addPseudoState (.region ⟨1⟩) "way" .junction, .addState (.region ⟨0⟩) "out",
    .addTransition ((Draft.between ⟨3⟩ ⟨5⟩).on "go"), .addTransition (.between ⟨5⟩ ⟨6⟩), .onExit ⟨3⟩ fun _ i => i,
    .onExit ⟨1⟩ fun _ i => i]

def inside : Instance Unit := (({ data := () } : Instance Unit).setCurrent ⟨0⟩ ⟨1⟩).setCurrent ⟨1⟩ ⟨3⟩

def wentOn : Run String Unit Unit :=
  ran (Eval.follow shortcut.toModel shortcut.toModel.compile Context.strict 50 (.message "go") ⟨2⟩
    { inst := inside, outside := () })

theorem exits_le_shortcut :
    wentOn.events.countP (·.leaves ⟨3⟩) = 2 ∧ wentOn.events.countP (·.uproots shortcut.toModel ⟨3⟩) = 1 ∧
      ∃ new, wentOn.events = new ++ [] ∧ ∀ w, shortcut.isState w = true →
        new.countP (·.leaves w) ≤ (if shortcut.isActive inside w then 1 else 0) +
          new.countP (·.uproots shortcut.toModel w) ∧
        new.countP (·.exits w) = shortcut.exitCount w * new.countP (·.leaves w) := by
  have hbuilt : shortcut.Built := (Built.ofName "m").edited _
  have hnothing : Action.KeepsRecords (fun _ i => i : Action String Unit) := fun _ _ => rfl
  have hacts : shortcut.Acts Action.KeepsRecords :=
    acts_edited "m" (by simp [hnothing, Edit.Uses, Draft.between, Draft.on, Draft.guarded])
  have hempty : shortcut.Fits false { data := () } := Model.fits_empty ()
  have hfits : shortcut.Fits false inside :=
    (hempty.setCurrent (r := ⟨0⟩) (v := ⟨1⟩) (by decide +kernel) (by simp)).setCurrent (r := ⟨1⟩) (v := ⟨3⟩)
      (by decide +kernel) (by simp)
  have hgo : shortcut.transition? ⟨2⟩ = some ((shortcut.transition? ⟨2⟩).get (by decide +kernel)) :=
    (Option.some_get _).symm
  have hwent : Eval.follow shortcut.toModel shortcut.toModel.compile Context.strict 50 (.message "go") ⟨2⟩
      { inst := inside, outside := () } = .ok () wentOn :=
    eq_ok_of_answer? (by decide +kernel)
  exact ⟨by decide +kernel, by decide +kernel,
    Built.exits_le hbuilt hacts Context.strict 50 (.message "go") hgo hfits (by decide +kernel) hwent⟩

theorem initialised_shortcut : (shortcut.played 50 () []).isSome = true := by decide +kernel

theorem left_twice_shortcut :
    ¬ ∀ (m : Machine String Unit) (play : Play String Unit) (t : TransitionId) (record : Transition String Unit)
        (trigger : Trigger String) (fuel : Nat) (run : Run String Unit Unit),
      m.Built → m.isWellFormed = true → m.Plays play → m.transition? t = some record →
      m.isState record.source = true → m.isActive play.2.1 record.source = true →
      Eval.follow m.toModel m.toModel.compile Context.strict fuel trigger t { inst := play.2.1, outside := () } =
        .ok () run →
      ∀ w, m.isState w = true → run.events.countP (·.exits w) ≤
        m.exitCount w * ((if m.isActive play.2.1 w then 1 else 0) + run.events.countP (·.enters w)) := by
  intro hall
  have hle := hall shortcut ((shortcut.played 50 () []).get initialised_shortcut) ⟨2⟩
    ((shortcut.transition? ⟨2⟩).get (by decide +kernel)) (.message "go") 50 _ ((Built.ofName "m").edited _)
    (by decide +kernel) (plays_of_played shortcut 50 () [] initialised_shortcut) (Option.some_get _).symm
    (by decide +kernel) (by decide +kernel) (eq_ok_of_answer? (a := ()) (by decide +kernel)) ⟨3⟩ (by decide +kernel)
  revert hle
  decide +kernel

end Machine

end Statechart
