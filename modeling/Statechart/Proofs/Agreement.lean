import Statechart.Proofs.Zones

/-!
# Programs that agree

A region whose default entry cannot mean anything but its initial vertex may be entered by the steps of that vertex or
by a step of its own. Programs that choose differently do the same to every run whose records fit. They need not take
the same fuel, but twice the fuel of the one is always enough for the other.
-/

namespace Statechart

variable {μ δ σ α β : Type}

namespace Model

variable {m : Model μ δ} {A : Action μ δ → Prop} {deep : Bool}

/-! ## Steps under deep history -/

def DeepIf (m : Model μ δ) (deep : Bool) (v : VertexId) : Prop :=
  deep = true → ∃ r, m.parent? v = some r ∧
    (m.isUnderDeepHistory r = true ∨ (m.headKind? r == some .deepHistory) = true)

theorem hereditary_deepIf (h : m.Arena) : m.Hereditary (m.DeepIf deep) := by
  intro v r o hv ho hdeep hd
  obtain ⟨q, hq, hunder⟩ := hdeep hd
  exact ⟨r, hv, Or.inl (isUnderDeepHistory_of_owner h hq ho hunder)⟩

theorem deep_eq_false_of_isEnteredPlainly {r : RegionId} {v : VertexId} (hr : m.isEnteredPlainly r = true)
    (hv : m.parent? v = some r) (hd : m.DeepIf deep v) : deep = false := by
  cases hdeep : deep with
  | false => rfl
  | true =>
    obtain ⟨q, hq, hunder⟩ := hd hdeep
    rw [hv, Option.some.injEq] at hq
    subst hq
    simp only [isEnteredPlainly, Bool.and_eq_true, Bool.not_eq_true', beq_iff_eq] at hr hunder
    rcases hunder with hunder | hunder
    · rw [hr.1] at hunder; cases hunder
    · rw [hr.2] at hunder; cases hunder

/-- The step may be performed with the deep flag set or not, as `deep` says. -/
def Proper (m : Model μ δ) (A : Action μ δ → Prop) (deep : Bool) (s : Step μ δ) : Prop :=
  m.Within A (m.DeepIf deep) s ∧ ∀ r initial kind, s = .enterRegion r initial kind → kind = m.headKind? r

theorem parent?_of_entered {i : Instance δ} (hi : m.Fits false i) {r : RegionId} {initial : Option VertexId}
    {kind : Option PseudoKind} {v : VertexId} (hs : m.Proper A deep (.enterRegion r initial kind))
    (hv : (if deep || kind.any (·.isHistory) then i.current? r else none).or initial = some v) :
    m.parent? v = some r := by
  rcases Option.or_eq_some_iff.mp hv with hv | ⟨_, hv⟩
  · split at hv
    · exact (hi r v hv).1
    · cases hv
  · exact hs.1.2.2 v hv

theorem deepIf_of_entered {r : RegionId} {initial : Option VertexId} {kind : Option PseudoKind} {v : VertexId}
    (hs : m.Proper A deep (.enterRegion r initial kind)) (hp : m.parent? v = some r) :
    m.DeepIf (deep || kind == some .deepHistory) v := by
  intro hd
  rcases Bool.or_eq_true_iff.mp hd with hd | hd
  · exact hs.1.2.1 v hp hd
  · exact ⟨r, hp, Or.inr (hs.2 r initial kind rfl ▸ hd)⟩

/-- The sequences differ in how plain regions are entered, and in nothing else. -/
inductive Alike (m : Model μ δ) (A : Action μ δ → Prop) (deep : Bool) : List (Step μ δ) → List (Step μ δ) → Prop
  | nil : Alike m A deep [] []
  | cons {s : Step μ δ} {l l' : List (Step μ δ)} : m.Proper A deep s → Alike m A deep l l' →
      Alike m A deep (s :: l) (s :: l')
  | left {r : RegionId} {v : VertexId} {l l' : List (Step μ δ)} (hr : m.isEnteredPlainly r = true)
      (hv : m.head? r = some v) (hd : deep = false) : Alike m A deep l l' →
      Alike m A deep (m.beginEnterVertex v ++ m.endEnterPseudo v ++ l)
        (.enterRegion r (some v) (m.headKind? r) :: l')
  | right {r : RegionId} {v : VertexId} {l l' : List (Step μ δ)} (hr : m.isEnteredPlainly r = true)
      (hv : m.head? r = some v) (hd : deep = false) : Alike m A deep l l' →
      Alike m A deep (.enterRegion r (some v) (m.headKind? r) :: l)
        (m.beginEnterVertex v ++ m.endEnterPseudo v ++ l')

variable {l₁ l₁' l₂ l₂' : List (Step μ δ)}

theorem Alike.refl {l : List (Step μ δ)} (hl : ∀ s ∈ l, m.Proper A deep s) : Alike m A deep l l := by
  induction l with
  | nil => exact .nil
  | cons s l ih => exact .cons (hl s (by simp)) (ih fun s hs => hl s (List.mem_cons_of_mem _ hs))

theorem Alike.append (h₁ : Alike m A deep l₁ l₁') (h₂ : Alike m A deep l₂ l₂') :
    Alike m A deep (l₁ ++ l₂) (l₁' ++ l₂') := by
  induction h₁ with
  | nil => exact h₂
  | cons hs _ ih => exact .cons hs ih
  | left hr hv hd _ ih =>
    rw [List.append_assoc]
    exact .left hr hv hd ih
  | right hr hv hd _ ih =>
    rw [List.append_assoc]
    exact .right hr hv hd ih

theorem Alike.flatMap {ι : Type} {f g : ι → List (Step μ δ)} {xs : List ι}
    (h : ∀ x ∈ xs, Alike m A deep (f x) (g x)) : Alike m A deep (xs.flatMap f) (xs.flatMap g) := by
  induction xs with
  | nil => exact .nil
  | cons x xs ih =>
    simp only [List.flatMap_cons]
    exact (h x (by simp)).append (ih fun y hy => h y (List.mem_cons_of_mem _ hy))

/-! ## The sequences of two programs -/

theorem Beginning.proper {s : Step μ δ} (hA : m.Acts A) (hs : m.Beginning (m.DeepIf deep) s) : m.Proper A deep s :=
  ⟨hs.within hA, by rintro _ _ _ rfl; cases hs⟩

theorem Arriving.proper {s : Step μ δ} (h : m.Arena) (hA : m.Acts A) (hs : m.Arriving (m.DeepIf deep) s) :
    m.Proper A deep s := by
  refine ⟨hs.within h hA, ?_⟩
  rintro _ _ _ rfl
  cases hs with
  | begin hs => cases hs
  | enter => rfl

theorem Departing.proper {s : Step μ δ} {v : VertexId} (h : m.Arena) (hA : m.Acts A) (hs : m.Departing v s) :
    m.Proper A deep s :=
  ⟨hs.within h hA, by rintro _ _ _ rfl; cases hs⟩

section
variable {f g : RegionId → Bool} (h : m.Arena) (hA : m.Acts A)
variable (hf : ∀ r, f r = true → m.isEnteredPlainly r = true) (hg : ∀ r, g r = true → m.isEnteredPlainly r = true)

include hA in
theorem alike_beginEnterVertex {v : VertexId} (hv : m.DeepIf deep v) :
    Alike m A deep (m.beginEnterVertex v) (m.beginEnterVertex v) :=
  Alike.refl fun s hs => (beginning_beginEnterVertex hv s hs).proper hA

theorem alike_beginEnterRegion (r : RegionId) :
    Alike m A deep (beginEnterRegion r : List (Step μ δ)) (beginEnterRegion r) :=
  .cons ⟨trivial, nofun⟩ .nil

include h hA

theorem alike_endEnterPseudo {v : VertexId} (hv : m.DeepIf deep v) :
    Alike m A deep (m.endEnterPseudo v) (m.endEnterPseudo v) :=
  Alike.refl fun s hs => (arriving_endEnterPseudo hv s hs).proper h hA

theorem alike_leaveVertex (v : VertexId) : Alike m A deep (m.leaveVertex v) (m.leaveVertex v) :=
  Alike.refl fun s hs => (departing_leaveVertex v s hs).proper h hA

theorem alike_effectsOf (t : TransitionId) : Alike m A deep (m.effectsOf t) (m.effectsOf t) :=
  Alike.refl fun s hs => (arriving_effectsOf t s hs).proper h hA

theorem alike_leaveRegion {v : VertexId} {r : RegionId} (hr : r ∈ m.regionsOf v) :
    Alike m A deep (leaveRegion r : List (Step μ δ)) (leaveRegion r) :=
  Alike.refl fun s hs => (departing_leaveRegion hr s hs).proper h hA

include hf hg

theorem alike_endEnterRegion {r : RegionId} (hr : (m.region? r).isSome)
    (hV : ∀ v, m.parent? v = some r → m.DeepIf deep v) :
    Alike m A deep (m.endEnterRegion f r) (m.endEnterRegion g r) := by
  unfold endEnterRegion
  cases hv : m.head? r with
  | none => exact .cons ⟨⟨hr, hV, by simp⟩, by rintro _ _ _ ⟨⟩; simp [headKind?, hv]⟩ .nil
  | some v =>
    have hp := parent?_of_head? h hv
    have hsame : Alike m A deep [.enterRegion r (some v) (m.headKind? r)] [.enterRegion r (some v) (m.headKind? r)] :=
      .cons ⟨⟨hr, hV, by rintro _ ⟨⟩; exact hp⟩, by rintro _ _ _ ⟨⟩; rfl⟩ .nil
    have hspliced : Alike m A deep (m.beginEnterVertex v ++ m.endEnterPseudo v)
        (m.beginEnterVertex v ++ m.endEnterPseudo v) :=
      (alike_beginEnterVertex hA (hV v hp)).append (alike_endEnterPseudo h hA (hV v hp))
    have hdeep : ∀ hr : m.isEnteredPlainly r = true, deep = false := fun hr =>
      deep_eq_false_of_isEnteredPlainly hr hp (hV v hp)
    cases hfr : f r <;> cases hgr : g r <;> simp only [Bool.false_eq_true, ite_true, ite_false]
    · exact hsame
    · simpa using Alike.right (hg r hgr) hv (hdeep (hg r hgr)) .nil
    · simpa using Alike.left (hf r hfr) hv (hdeep (hf r hfr)) .nil
    · exact hspliced

theorem alike_endEnterVertex {v : VertexId} (hv : m.DeepIf deep v) :
    Alike m A deep (m.endEnterVertex f v) (m.endEnterVertex g v) := by
  rw [endEnterVertex_eq, endEnterVertex_eq]
  refine (alike_endEnterPseudo h hA hv).append (Alike.flatMap fun r hr => (alike_beginEnterRegion r).append ?_)
  exact alike_endEnterRegion h hA hf hg (region?_isSome_of_mem h hr) (Hereditary.members h (hereditary_deepIf h) hv hr)

theorem alike_cascade (l : List VertexId) : Alike m A false (m.cascade f l) (m.cascade g l) := by
  have hany : ∀ v, m.DeepIf false v := fun v hd => by cases hd
  induction l with
  | nil => exact .nil
  | cons v l ih =>
    cases l with
    | nil => exact alike_beginEnterVertex hA (hany v)
    | cons w rest =>
      refine ((alike_beginEnterVertex hA (hany v)).append (Alike.flatMap fun r hr => ?_)).append ih
      refine (alike_beginEnterRegion r).append ?_
      split
      · exact .nil
      · exact alike_endEnterRegion h hA hf hg (region?_isSome_of_mem h hr) fun v _ => hany v

theorem alike_arrival (t : TransitionId) (l : List VertexId) (u : VertexId) :
    Alike m A false (m.arrival f t l u) (m.arrival g t l u) :=
  ((alike_effectsOf h hA t).append (alike_cascade h hA hf hg l)).append
    (alike_endEnterVertex h hA hf hg fun hd => by cases hd)

omit h hA hf hg in
theorem detours_eq_nil_iff (t : TransitionId) (u : VertexId) (l : List VertexId) :
    m.detours f t u l = [] ↔ m.detours g t u l = [] := by
  induction l with
  | nil => exact Iff.rfl
  | cons v l ih => cases hv : m.parent? v <;> simp [detours, hv, ih]

theorem alike_detours (t : TransitionId) (u : VertexId) (i : Instance δ) (l : List VertexId) :
    Alike m A false ((Route.detours (m.detours f t u l)).steps i) ((Route.detours (m.detours g t u l)).steps i) := by
  induction l with
  | nil => exact .nil
  | cons v l ih =>
    cases hv : m.parent? v with
    | none => simpa only [detours, hv] using ih
    | some r =>
      obtain ⟨o, ho⟩ := h.owner?_of_parent? hv
      have hleave : Alike m A false (leaveRegion r) (leaveRegion r) :=
        alike_leaveRegion h hA (h.mem_regionsOf.mpr ho)
      have hhere := hleave.append (alike_arrival h hA hf hg t (v :: l) u)
      -- The detour from `v` is taken if its region does not record `v`, or if no later one is left; the lists agree on
      -- both.
      by_cases hr : i.current? r = some v
      · have hnil := detours_eq_nil_iff (m := m) (f := f) (g := g) t u l
        cases hrest : m.detours f t u l with
        | nil => simpa [Route.steps, detours, hv, hr, hrest, hnil.mp hrest] using hhere
        | cons d ds =>
          cases hrest' : m.detours g t u l with
          | nil => rw [hnil.mpr hrest'] at hrest; cases hrest
          | cons d' ds' =>
            rw [hrest, hrest'] at ih
            simp only [detours, hv, hrest, hrest', Route.steps, List.find?_cons, hr, bne_self_eq_false,
              List.getLast?_cons_cons] at ih ⊢
            exact ih
      · have hne : (i.current? r != some v) = true := by simp [hr]
        simpa [Route.steps, detours, hv, hne] using hhere

theorem alike_route (t : TransitionId) (i : Instance δ) :
    Alike m A false ((m.route f t).steps i) ((m.route g t).steps i) := by
  unfold route
  cases hrec : m.transition? t with
  | none => exact .nil
  | some record =>
    cases hu : record.target with
    | none => simpa only [hu, Route.steps] using alike_effectsOf h hA t
    | some u =>
      simp only [hu]
      split
      · exact alike_detours h hA hf hg t u i _
      · refine Alike.append ?_ (alike_arrival h hA hf hg t _ u)
        cases (m.chain record.source)[m.divergence (m.chain record.source) (m.chain u)]? with
        | none => exact .nil
        | some d => exact alike_leaveVertex h hA d

theorem alike_onInitialise :
    Alike m A false (m.compileWith f).onInitialise (m.compileWith g).onInitialise :=
  (alike_beginEnterVertex hA fun hd => by cases hd).append (alike_endEnterVertex h hA hf hg fun hd => by cases hd)

omit hf hg in
theorem Alike.proper {l l' : List (Step μ δ)} (hl : Alike m A deep l l') : ∀ s ∈ l, m.Proper A deep s := by
  induction hl with
  | nil => simp
  | cons hs _ ih => exact List.forall_mem_cons.mpr ⟨hs, ih⟩
  | @left r v l l' hr hv hd _ ih =>
    have hdeep : m.DeepIf deep v := fun hdeep => by rw [hd] at hdeep; cases hdeep
    intro s hs
    rcases List.mem_append.mp hs with hs | hs
    · rcases List.mem_append.mp hs with hs | hs
      · exact (beginning_beginEnterVertex hdeep s hs).proper hA
      · exact (arriving_endEnterPseudo hdeep s hs).proper h hA
    · exact ih s hs
  | @right r v l l' hr hv hd _ ih =>
    have hp := parent?_of_head? h hv
    refine List.forall_mem_cons.mpr ⟨⟨⟨region?_isSome_of_parent? h hp, ?_, ?_⟩, ?_⟩, ih⟩
    · intro w _ hdeep
      rw [hd] at hdeep
      cases hdeep
    · rintro _ ⟨⟩
      exact hp
    · rintro _ _ _ ⟨⟩
      rfl

end

end Model

/-! ## Agreement -/

/-- Started where `P` holds, `y` does what `x` does unless `x` runs out of fuel. -/
def Agrees (P : Run μ δ σ → Prop) (x y : Eval μ δ σ α) : Prop :=
  ∀ run, P run → (∃ run', x run = .error .outOfFuel run') ∨ y run = x run

namespace Agrees

variable {P : Run μ δ σ → Prop} {x y : Eval μ δ σ α}

theorem refl (x : Eval μ δ σ α) : Agrees P x x := fun _ _ => Or.inr rfl

theorem outOfFuel (y : Eval μ δ σ α) : Agrees P (throw .outOfFuel) y := fun run _ => Or.inl ⟨run, rfl⟩

theorem pre {P' : Run μ δ σ → Prop} (h : Agrees P x y) (hP : ∀ run, P' run → P run) : Agrees P' x y :=
  fun run hr => h run (hP run hr)

theorem bind {Q : α → Run μ δ σ → Prop} {F G : α → Eval μ δ σ β} (h : Agrees P x y)
    (hx : Triple P x Q fun _ _ => True) (hF : ∀ a, Agrees (Q a) (F a) (G a)) : Agrees P (x >>= F) (y >>= G) := by
  intro run hr
  change (∃ run', EStateM.bind x F run = _) ∨ EStateM.bind y G run = EStateM.bind x F run
  unfold EStateM.bind
  rcases h run hr with ⟨run', hx'⟩ | heq
  · rw [hx']
    exact Or.inl ⟨run', rfl⟩
  · rw [heq]
    cases hres : x run with
    | error e run' => exact Or.inr rfl
    | ok a run' => exact hF a run' (hx.of_ok hr hres)

theorem of_imp {p : Prop} (hP : ∀ run, P run → p) (h : p → Agrees P x y) : Agrees P x y :=
  fun run hr => h (hP run hr) run hr

theorem ite_bind {x' y' : Eval μ δ σ α} {p : Prop} [Decidable p] {Q : α → Run μ δ σ → Prop} {F G : α → Eval μ δ σ β}
    (hx : p → Agrees P x y) (hx' : ¬ p → Agrees P x' y') (ht : Triple P x Q fun _ _ => True)
    (ht' : Triple P x' Q fun _ _ => True) (hF : ∀ a, Agrees (Q a) (F a) (G a)) :
    Agrees P (if p then x >>= F else x' >>= F) (if p then y >>= G else y' >>= G) := by
  by_cases hp : p
  · rw [if_pos hp, if_pos hp]
    exact (hx hp).bind ht hF
  · rw [if_neg hp, if_neg hp]
    exact (hx' hp).bind ht' hF

theorem inst_bind {F G : Instance δ → Eval μ δ σ β} (hF : ∀ i, Agrees (fun run => P run ∧ run.inst = i) (F i) (G i)) :
    Agrees P (Eval.inst >>= F) (Eval.inst >>= G) :=
  fun run hr => hF run.inst run ⟨hr, rfl⟩

end Agrees

namespace Eval

open Model

variable {m : Model μ δ} {c : Context σ}

/-- Two programs of the same model, the second of which is given twice the fuel, come to the same. -/
structure Keeps (m : Model μ δ) (f g : RegionId → Bool) (c : Context σ) (P : Run μ δ σ → Prop) (n : Nat) : Prop where
  step : ∀ n' mode s, 2 * n ≤ n' → m.Proper Action.KeepsRecords mode.deep s →
    Agrees P (performStep m (m.compileWith f) c n mode s) (performStep m (m.compileWith g) c n' mode s)
  traverse : ∀ n' mode t, 2 * n ≤ n' → (m.transition? t).isSome →
    Agrees P (traverse m (m.compileWith f) c n mode t) (traverse m (m.compileWith g) c n' mode t)
  follow : ∀ n' trigger t, 2 * n ≤ n' → (m.transition? t).isSome →
    Agrees P (follow m (m.compileWith f) c n trigger t) (follow m (m.compileWith g) c n' trigger t)
  completeAll : ∀ n' l, 2 * n ≤ n' →
    Agrees P (completeAll m (m.compileWith f) c n l) (completeAll m (m.compileWith g) c n' l)
  complete : ∀ n' v, 2 * n ≤ n' →
    Agrees P (complete m (m.compileWith f) c n v) (complete m (m.compileWith g) c n' v)
  offer : ∀ n' trigger v, 2 * n ≤ n' →
    Agrees P (offer m (m.compileWith f) c n trigger v) (offer m (m.compileWith g) c n' trigger v)
  offerBeneath : ∀ n' trigger v rs, 2 * n ≤ n' →
    Agrees P (offerBeneath m (m.compileWith f) c n trigger v rs)
      (offerBeneath m (m.compileWith g) c n' trigger v rs)

/-! ## Entering a plain region -/

theorem proper_traverse (h : m.Arena) {A : Action μ δ → Prop} (hA : m.Acts A) {deep : Bool} {v : VertexId}
    {t : TransitionId} (hd : deep = false) (he : m.endEnterPseudo v = [.traverse t]) :
    m.Proper A deep (.traverse t) := by
  have hv : m.DeepIf deep v := fun hdeep => by rw [hd] at hdeep; cases hdeep
  exact (arriving_endEnterPseudo hv _ (by simp [he])).proper h hA

theorem performStep_enterRegion {plainly : RegionId → Bool} {r : RegionId} {v : VertexId}
    (hr : m.isEnteredPlainly r = true) (hv : m.head? r = some v) {mode : Mode μ} (hd : mode.deep = false) (k : Nat) :
    (performStep m (m.compileWith plainly) c (k + 1) mode (.enterRegion r (some v) (m.headKind? r)) : Eval μ δ σ Unit) =
      (do perform m (m.compileWith plainly) c k mode [.announceEnter (.vertex v)]
          perform m (m.compileWith plainly) c k mode (m.endEnterPseudo v)) := by
  have hinitial := isInitial_of_head? hv
  have hknown := vertex?_isSome_of_isInitial hinitial
  have hkind : m.headKind? r = some .initial := by
    simp only [isEnteredPlainly, Bool.and_eq_true, beq_iff_eq] at hr
    exact hr.2
  -- With the deep flag off and a plain initial vertex at the head, no record is looked at.
  obtain ⟨trigger, nested, deep⟩ := mode
  cases hd
  have hend : m.endEnterVertex plainly v = m.endEnterPseudo v :=
    endEnterVertex_of_not_isState hknown (isState_eq_false_of_isInitial hinitial)
  rw [hkind, ← beginEnterVertex_of_isInitial hinitial, ← hend]
  funext run
  change (do
    let steps ← behavior (m.compileWith plainly) v
    perform m (m.compileWith plainly) c k { trigger, nested } steps.beginEnter
    perform m (m.compileWith plainly) c k { trigger, nested } steps.endEnter : Eval μ δ σ Unit) run = _
  rw [behavior_compileWith hknown, pure_bind]
  rfl

abbrev Fitting (m : Model μ δ) (run : Run μ δ σ) : Prop := m.Fits false run.inst

section
variable {f g : RegionId → Bool} (h : m.Arena) (hA : m.Acts Action.KeepsRecords)
variable (hf : ∀ r, f r = true → m.isEnteredPlainly r = true) (hg : ∀ r, g r = true → m.isEnteredPlainly r = true)

include h hA in
theorem lasts_fitting (f : RegionId → Bool) (k : Nat) :
    Lasts m f c Action.KeepsRecords (fun _ => True) (fun _ => True) (Fitting m) k :=
  durable_fits.lasts h hA (fun _ => trivial) k

include h hA in
theorem triple_step {k : Nat} {mode : Mode μ} {s : Step μ δ} (hs : m.Proper Action.KeepsRecords mode.deep s) :
    Triple (Fitting m) (performStep m (m.compileWith f) c k mode s) (fun _ => Fitting m) fun _ _ => True :=
  ((lasts_fitting h hA f k).step mode s (hs.1.mono fun _ _ => trivial)).halts fun _ _ _ => trivial

theorem perform_cons (p : Program μ δ) (k : Nat) (mode : Mode μ) (s : Step μ δ) (l : List (Step μ δ)) :
    (perform m p c (k + 1) mode (s :: l) : Eval μ δ σ Unit) =
      (do performStep m p c k mode s; perform m p c k mode l) := rfl

theorem perform_single (p : Program μ δ) (k : Nat) (mode : Mode μ) (s : Step μ δ) :
    (perform m p c (k + 1) mode [s] : Eval μ δ σ Unit) = performStep m p c k mode s := by
  rw [perform_cons]
  cases k <;> exact bind_pure _

theorem perform_announceEnter (p : Program μ δ) (k : Nat) (mode : Mode μ) (e : Element) (l : List (Step μ δ)) :
    (perform m p c (k + 2) mode (.announceEnter e :: l) : Eval μ δ σ Unit) =
      (do announceEnter m c e; perform m p c (k + 1) mode l) := rfl

theorem triple_announced {e : Element} : Triple (Fitting m) (announceEnter m c e : Eval μ δ σ Unit)
    (fun _ => Fitting m) fun _ _ => True := Triple.modify fun _ hr => hr

include h hA in
theorem agrees_perform {n : Nat} (hk : ∀ k < n, Keeps m f g c (Fitting m : Run μ δ σ → Prop) k) {mode : Mode μ}
    {l l' : List (Step μ δ)} (hl : m.Alike Action.KeepsRecords mode.deep l l') :
    ∀ k ≤ n, ∀ n', 2 * k ≤ n' → Agrees (Fitting m) (perform m (m.compileWith f) c k mode l)
      (perform m (m.compileWith g) c n' mode l') := by
  -- The induction is on how the sequences are alike. What one program has spliced takes the other a step of its own and
  -- up to twice the fuel, which is why the second one is given so much.
  induction hl with
  | nil =>
    intro k _ n' _
    cases k <;> cases n' <;> exact Agrees.refl _
  | @cons s l l' hs _ ih =>
    intro k hkn n' hn'
    cases k with
    | zero => exact Agrees.outOfFuel _
    | succ k =>
      obtain ⟨n', rfl⟩ : ∃ j, n' = j + 1 := ⟨n' - 1, by omega⟩
      exact ((hk k (by omega)).step n' mode s (by omega) hs).bind (triple_step h hA hs) fun _ =>
        ih k (by omega) n' (by omega)
  | @left r v l l' hr hv hd _ ih =>
    intro k hkn n' hn'
    rw [beginEnterVertex_of_isInitial (isInitial_of_head? hv), List.append_assoc, List.singleton_append]
    obtain _ | _ | k := k
    · exact Agrees.outOfFuel _
    · exact Agrees.outOfFuel _
    · obtain ⟨n', rfl⟩ : ∃ j, n' = j + 4 := ⟨n' - 4, by omega⟩
      rw [perform_announceEnter, perform_cons, performStep_enterRegion hr hv hd, bind_assoc, perform_single]
      refine Agrees.bind (Q := fun _ => Fitting m) (Agrees.refl _) triple_announced fun _ => ?_
      rcases endEnterPseudo_cases m v with ⟨he, _⟩ | ⟨t, _, _, _, he⟩
      · rw [he]
        exact ih (k + 1) (by omega) (n' + 3) (by omega)
      · rw [he, List.singleton_append, perform_cons, perform_single]
        have hs : m.Proper Action.KeepsRecords mode.deep (.traverse t) := proper_traverse h hA hd he
        exact ((hk k (by omega)).step (n' + 1) mode (.traverse t) (by omega) hs).bind (triple_step h hA hs) fun _ =>
          ih k (by omega) (n' + 3) (by omega)
  | @right r v l l' hr hv hd _ ih =>
    intro k hkn n' hn'
    rw [beginEnterVertex_of_isInitial (isInitial_of_head? hv), List.append_assoc, List.singleton_append]
    obtain _ | _ | _ | _ | k := k
    · exact Agrees.outOfFuel _
    · exact Agrees.outOfFuel _
    · rw [perform_cons, performStep_enterRegion hr hv hd]
      exact Agrees.outOfFuel _
    · rw [perform_cons, performStep_enterRegion hr hv hd]
      exact Agrees.outOfFuel _
    · obtain ⟨n', rfl⟩ : ∃ j, n' = j + 2 := ⟨n' - 2, by omega⟩
      rw [perform_announceEnter, perform_cons, performStep_enterRegion hr hv hd, bind_assoc, perform_single]
      refine Agrees.bind (Q := fun _ => Fitting m) (Agrees.refl _) triple_announced fun _ => ?_
      rcases endEnterPseudo_cases m v with ⟨he, _⟩ | ⟨t, _, _, _, he⟩
      · rw [he]
        exact ih (k + 3) (by omega) (n' + 1) (by omega)
      · rw [he, List.singleton_append, perform_single, perform_cons]
        have hs : m.Proper Action.KeepsRecords mode.deep (.traverse t) := proper_traverse h hA hd he
        exact ((hk (k + 1) (by omega)).step n' mode (.traverse t) (by omega) hs).bind (triple_step h hA hs) fun _ =>
          ih (k + 3) (by omega) n' (by omega)

/-! ## The parts of an evaluation -/

include h hA in
theorem triple_perform {k : Nat} {mode : Mode μ} {l : List (Step μ δ)}
    (hl : ∀ s ∈ l, m.Within Action.KeepsRecords (fun _ => True) s) :
    Triple (Fitting m) (perform m (m.compileWith f) c k mode l) (fun _ => Fitting m) fun _ _ => True :=
  ((Lasts.does (fun j _ => lasts_fitting h hA f j) mode hl) k (Nat.le_refl k)).halts fun _ _ _ => trivial

include h hA hf hg in
theorem agrees_step {k n' : Nat} (hk : ∀ j < k, Keeps m f g c (Fitting m : Run μ δ σ → Prop) j) {mode : Mode μ}
    {s : Step μ δ} (hn' : 2 * k ≤ n') (hs : m.Proper Action.KeepsRecords mode.deep s) :
    Agrees (Fitting m) (performStep m (m.compileWith f) c k mode s) (performStep m (m.compileWith g) c n' mode s) := by
  cases k with
  | zero => exact Agrees.outOfFuel _
  | succ k =>
  obtain ⟨n', rfl⟩ : ∃ j, n' = j + 1 := ⟨n' - 1, by omega⟩
  cases s with
  | leaveRegion r =>
    simp only [performStep]
    refine Agrees.inst_bind fun i => ?_
    cases hv : i.current? r with
    | none => exact Agrees.refl _
    | some v =>
      refine Agrees.of_imp (p := (m.vertex? v).isSome) (fun run hr => hr.1.vertex?_isSome (hr.2 ▸ hv)) fun hknown => ?_
      simp only [behavior_compileWith hknown, pure_bind]
      exact (agrees_perform h hA hk (alike_leaveVertex h hA v) k (by omega) n' (by omega)).pre fun _ hr => hr.1
  | enterRegion r initial kind =>
    simp only [performStep]
    refine Agrees.inst_bind fun i => ?_
    cases hv : (if mode.deep || kind.any fun x => x.isHistory then i.current? r else none).or initial with
    | none => exact Agrees.refl _
    | some v =>
      -- Recorded or head, what is entered stands in `r`, so that the deep flag is set only where it may be.
      refine Agrees.of_imp (p := m.parent? v = some r) (fun run hr => ?_) fun hp => ?_
      · exact parent?_of_entered hr.1 hs (hr.2 ▸ hv)
      have hknown := vertex?_isSome_of_parent? hp
      have hdeep := deepIf_of_entered hs hp
      simp only [behavior_compileWith hknown, pure_bind]
      refine Agrees.pre (Agrees.bind (Q := fun _ => Fitting m) ?_ ?_ fun _ => ?_) fun _ hr => hr.1
      · exact agrees_perform h hA hk (alike_beginEnterVertex hA hdeep) k (by omega) n' (by omega)
      · exact triple_perform h hA (within_beginEnterVertex hA trivial)
      · exact agrees_perform h hA hk (alike_endEnterVertex h hA hf hg hdeep) k (by omega) n' (by omega)
  | traverse t =>
    obtain ⟨record, hrec, _⟩ := hs.1
    exact (hk k (by omega)).traverse n' mode t (by omega) (by simp [hrec])
  | _ => exact Agrees.refl _

section
variable {k n' : Nat} (hn' : 2 * k ≤ n') (hk : ∀ j < k, Keeps m f g c (Fitting m : Run μ δ σ → Prop) j)
include hn' hk

include h hA in
theorem agrees_traverse {mode : Mode μ} {t : TransitionId} (ht : (m.transition? t).isSome) :
    Agrees (Fitting m) (traverse m (m.compileWith f) c k mode t) (traverse m (m.compileWith g) c n' mode t) := by
  cases k with
  | zero => exact Agrees.outOfFuel _
  | succ k =>
  obtain ⟨n', rfl⟩ : ∃ j, n' = j + 1 := ⟨n' - 1, by omega⟩
  obtain ⟨record, hrec⟩ := Option.isSome_iff_exists.mp ht
  simp only [traverse]
  refine Agrees.bind ((hk k (by omega)).follow n' mode.trigger t (by omega) ht)
    (((lasts_fitting h hA f k).follow mode.trigger t record hrec trivial fun _ => trivial).halts
      fun _ _ _ => trivial) fun _ => ?_
  cases mode.nested with
  | true => exact Agrees.refl (pure ())
  | false =>
    have hget : Triple (Fitting m) (modifyGet fun run => (run.arrived, { run with arrived := [] }) : Eval μ δ σ _)
        (fun _ => Fitting m) fun _ _ => True := fun _ hr => hr
    exact Agrees.bind (Agrees.refl _) hget fun arrived => (hk k (by omega)).completeAll n' arrived (by omega)

include h hA hf hg in
theorem agrees_follow {trigger : Trigger μ} {t : TransitionId} (ht : (m.transition? t).isSome) :
    Agrees (Fitting m) (follow m (m.compileWith f) c k trigger t) (follow m (m.compileWith g) c n' trigger t) := by
  cases k with
  | zero => exact Agrees.outOfFuel _
  | succ k =>
  obtain ⟨n', rfl⟩ : ∃ j, n' = j + 1 := ⟨n' - 1, by omega⟩
  obtain ⟨record, hrec⟩ := Option.isSome_iff_exists.mp ht
  simp only [follow, hrec, route?_compileWith ht]
  refine Agrees.inst_bind fun i => ?_
  have hnote : Triple (fun run => Fitting m run ∧ run.inst = i) (note (.fired t trigger i) : Eval μ δ σ Unit)
      (fun _ => Fitting m) fun _ _ => True := triple_note fun _ hr => hr.1
  refine Agrees.bind (Agrees.refl _) hnote fun _ => ?_
  refine Agrees.bind (agrees_perform h hA hk (alike_route h hA hf hg t i) k (by omega) n' (by omega))
    (triple_perform h hA (within_route h hA (fun _ => trivial) t i)) fun _ => ?_
  cases hu : record.target with
  | none => exact Agrees.refl (pure ())
  | some u =>
    have hvertex : Triple (Fitting m) (vertex m u : Eval μ δ σ _)
        (fun reached run => Fitting m run ∧ m.vertex? u = some reached) fun _ _ => True :=
      triple_vertex fun _ _ _ => trivial
    refine Agrees.bind (Agrees.refl _) hvertex fun reached => ?_
    refine Agrees.of_imp (p := m.vertex? u = some reached) (fun _ hr => hr.2) fun hv => ?_
    cases reached.form with
    | state content => exact Agrees.refl _
    | pseudo kind =>
      cases hb : kind.isBranch with
      | false =>
        simp only [hb]
        exact Agrees.refl (pure ())
      | true =>
        simp only [hb, ite_true]
        have hselect : Triple (fun run => Fitting m run ∧ m.vertex? u = some reached)
            (selectBranch m c u kind reached.outgoing trigger : Eval μ δ σ _)
            (fun next run => Fitting m run ∧ ∀ t, next = some t → t ∈ m.outgoing u) fun _ _ => True := by
          refine (triple_selectBranch (P := Fitting m) (fun _ _ _ _ hr => hr) fun _ _ _ => trivial).conseq
            (fun _ hr => hr.1) (fun next run hr => ⟨hr.1, fun t ht => ?_⟩) fun _ _ h => h
          simpa [Model.outgoing, hv] using hr.2.1 t ht
        refine Agrees.bind (Agrees.refl _) hselect fun next => ?_
        cases next with
        | none => exact Agrees.refl (pure ())
        | some next =>
          refine Agrees.of_imp (p := (m.transition? next).isSome) (fun run hr => ?_) fun hnext => ?_
          · obtain ⟨record', hrec', _⟩ := h.source_of_mem_outgoing (hr.2 next rfl)
            simp [hrec']
          · exact ((hk k (by omega)).follow n' trigger next (by omega) hnext).pre fun _ hr => hr.1

include h hA in
theorem agrees_completeAll (l : List VertexId) :
    Agrees (Fitting m) (completeAll m (m.compileWith f) c k l) (completeAll m (m.compileWith g) c n' l) := by
  cases l with
  | nil => cases k <;> cases n' <;> exact Agrees.refl _
  | cons v rest =>
    cases k with
    | zero => exact Agrees.outOfFuel _
    | succ k =>
    obtain ⟨n', rfl⟩ : ∃ j, n' = j + 1 := ⟨n' - 1, by omega⟩
    simp only [completeAll]
    exact Agrees.bind ((hk k (by omega)).complete n' v (by omega))
      (((lasts_fitting h hA f k).complete v trivial).halts fun _ _ _ => trivial) fun _ =>
      (hk k (by omega)).completeAll n' rest (by omega)

theorem agrees_complete (v : VertexId) :
    Agrees (Fitting m) (complete m (m.compileWith f) c k v) (complete m (m.compileWith g) c n' v) := by
  cases k with
  | zero => exact Agrees.outOfFuel _
  | succ k =>
  obtain ⟨n', rfl⟩ : ∃ j, n' = j + 1 := ⟨n' - 1, by omega⟩
  simp only [complete]
  refine Agrees.pre (P := Fitting m) (Agrees.inst_bind fun i => ?_) fun _ hr => hr
  cases i.terminated with
  | true => exact Agrees.refl (pure ())
  | false =>
    have hactive : Triple (fun run => Fitting m run ∧ run.inst = i) (isActive m v : Eval μ δ σ _)
        (fun _ => Fitting m) fun _ _ => True :=
      (triple_isActive fun _ _ _ => trivial).post fun _ _ hr => hr.1.1
    refine Agrees.bind (Agrees.refl _) hactive fun active => ?_
    cases active with
    | false => exact Agrees.refl (pure ())
    | true =>
      have hcomplete : Triple (Fitting m) (isComplete m v : Eval μ δ σ _) (fun _ => Fitting m) fun _ _ => True :=
        (triple_isComplete fun _ _ _ => trivial).post fun _ _ hr => hr.1
      refine Agrees.bind (Agrees.refl _) hcomplete fun done => ?_
      cases done with
      | false => exact Agrees.refl (pure ())
      | true => exact ((hk k (by omega)).offer n' _ v (by omega)).bind Triple.trivial fun _ => Agrees.refl (pure ())

include h hA in
theorem agrees_offerBeneath (trigger : Trigger μ) (v : VertexId) (rs : List RegionId) :
    Agrees (Fitting m) (offerBeneath m (m.compileWith f) c k trigger v rs)
      (offerBeneath m (m.compileWith g) c n' trigger v rs) := by
  cases rs with
  | nil => cases k <;> cases n' <;> exact Agrees.refl _
  | cons r rest =>
    cases k with
    | zero => exact Agrees.outOfFuel _
    | succ k =>
    obtain ⟨n', rfl⟩ : ∃ j, n' = j + 1 := ⟨n' - 1, by omega⟩
    have hrest := (hk k (by omega)).offerBeneath n' trigger v rest (by omega)
    simp only [offerBeneath]
    refine Agrees.inst_bind fun i => ?_
    cases i.current? r with
    | none => exact hrest.pre fun _ hr => hr.1
    | some current =>
      refine Agrees.pre (P := Fitting m) ?_ fun _ hr => hr.1
      refine Agrees.bind ((hk k (by omega)).offer n' trigger current (by omega))
        (((lasts_fitting h hA f k).offer trigger current trivial trivial).halts fun _ _ _ => trivial) fun consumed => ?_
      cases consumed with
      | false => exact hrest
      | true =>
        have hactive : Triple (Fitting m) (isActive m v : Eval μ δ σ _) (fun _ => Fitting m) fun _ _ => True :=
          (triple_isActive fun _ _ _ => trivial).post fun _ _ hr => hr.1
        refine Agrees.bind (Agrees.refl _) hactive fun active => ?_
        cases active with
        | false => exact Agrees.refl (pure true)
        | true =>
          refine Agrees.inst_bind fun i' => ?_
          cases i'.terminated with
          | true => exact Agrees.refl (pure true)
          | false =>
            refine Agrees.pre (P := Fitting m) ?_ fun _ hr => hr.1
            exact hrest.bind Triple.trivial fun _ => Agrees.refl (pure true)

include h hA in
theorem agrees_offer (trigger : Trigger μ) (v : VertexId) :
    Agrees (Fitting m) (offer m (m.compileWith f) c k trigger v) (offer m (m.compileWith g) c n' trigger v) := by
  cases k with
  | zero => exact Agrees.outOfFuel _
  | succ k =>
  obtain ⟨n', rfl⟩ : ∃ j, n' = j + 1 := ⟨n' - 1, by omega⟩
  simp only [offer]
  have hvertex : Triple (Fitting m) (vertex m v : Eval μ δ σ _)
      (fun record run => Fitting m run ∧ m.vertex? v = some record) fun _ _ => True :=
    triple_vertex fun _ _ _ => trivial
  refine Agrees.bind (Agrees.refl _) hvertex fun record => ?_
  refine Agrees.of_imp (p := m.vertex? v = some record) (fun _ hr => hr.2) fun hv => ?_
  refine Agrees.pre (P := Fitting m) ?_ fun _ hr => hr.1
  cases record.form with
  | pseudo kind => exact Agrees.refl (pure false)
  | state content =>
    refine Agrees.inst_bind fun i => ?_
    cases i.terminated with
    | true => exact Agrees.refl (pure false)
    | false =>
      have hnote : Triple (fun run => Fitting m run ∧ run.inst = i) (note (.offered v trigger) : Eval μ δ σ Unit)
          (fun _ => Fitting m) fun _ _ => True := triple_note fun _ hr => hr.1
      refine Agrees.bind (Agrees.refl _) hnote fun _ => ?_
      have hbeneath := (lasts_fitting (c := c) h hA f k).offerBeneath trigger v content.regions trivial trivial
        fun _ _ _ _ => trivial
      refine Agrees.ite_bind (Q := fun _ => Fitting m) (fun _ => Agrees.refl (pure false))
        (fun _ => (hk k (by omega)).offerBeneath n' trigger v content.regions (by omega))
        (Triple.pure fun _ hr => hr) (hbeneath.halts fun _ _ _ => trivial) fun consumed => ?_
      cases consumed with
      | true => exact ((hk k (by omega)).complete n' v (by omega)).bind Triple.trivial fun _ => Agrees.refl (pure true)
      | false =>
        refine Agrees.inst_bind fun i' => ?_
        rcases hen : enabled m v record.outgoing trigger i' with _ | ⟨t, _ | ⟨t', rest⟩⟩
        · exact Agrees.refl (pure false)
        · have ht : t ∈ m.outgoing v := by
            have hmem : t ∈ enabled m v record.outgoing trigger i' := by rw [hen]; simp
            simpa [Model.outgoing, hv] using (List.mem_filter.mp hmem).1
          obtain ⟨record', hrec', _⟩ := h.source_of_mem_outgoing ht
          refine Agrees.pre (P := Fitting m) ?_ fun _ hr => hr.1
          exact ((hk k (by omega)).traverse n' { trigger } t (by omega) (by simp [hrec'])).bind Triple.trivial
            fun _ => Agrees.refl (pure true)
        · exact Agrees.refl (do
            report c (.ambiguousTransition (m.qualifiedName (.vertex v)) (t :: t' :: rest).length)
            pure false)

end

include h hA hf hg in
theorem keeps (n : Nat) : Keeps m f g c (Fitting m : Run μ δ σ → Prop) n := by
  induction n using Nat.strongRecOn with
  | ind n ih =>
  exact {
    step := fun n' mode s hn' hs => agrees_step h hA hf hg ih hn' hs
    traverse := fun n' mode t hn' ht => agrees_traverse h hA hn' ih ht
    follow := fun n' trigger t hn' ht => agrees_follow h hA hf hg hn' ih ht
    completeAll := fun n' l hn' => agrees_completeAll h hA hn' ih l
    complete := fun n' v hn' => agrees_complete hn' ih v
    offer := fun n' trigger v hn' => agrees_offer h hA hn' ih trigger v
    offerBeneath := fun n' trigger v rs hn' => agrees_offerBeneath h hA hn' ih trigger v rs }

end

end Eval

end Statechart
