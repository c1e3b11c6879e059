import Statechart.Proofs.Bookkeeping
import Statechart.Proofs.Chronicle

/-!
# Recording

While a transition is followed the records stay what the events tell, and these make a chronicle, apart from the regions
that are still to be entered, where there are no branches and regions lead to states by default.
-/

namespace Statechart

open Model Eval

variable {μ δ σ : Type}

namespace Model

variable {m : Model μ δ} {F D : Set RegionId} {N : Set VertexId} {p q : RegionId} {v : VertexId} {deep : Bool}

/-! ## What may be entered -/

/-- Any state may be entered in `q`: what history governs there has never been entered, or `q` has been led into. -/
def Cleared (m : Model μ δ) (F D : Set RegionId) (q : RegionId) : Prop :=
  ∀ r, m.Governs r q → r ∈ D ∨ ∀ p, m.Encloses q p → p ∈ F

structure Free (m : Model μ δ) (deep : Bool) (F D : Set RegionId) (N : Set VertexId) (q : RegionId) : Prop where
  governed : ∀ r, m.Governs r q → r ≠ q → deep = true ∨ r ∈ D ∨ ∀ p, m.Encloses q p → p ∈ F
  aside : ∀ u ∈ N, ¬ m.Above q u

/-- `v` may be entered on the way down to `u`: what else has been aimed at lies at most side by side with `v`. -/
structure Way (m : Model μ δ) (F D : Set RegionId) (N : Set VertexId) (v u : VertexId) : Prop where
  cleared : ∀ p, m.parent? v = some p → m.Cleared F D p
  aside : ∀ x ∈ N, x = u ∨ ∃ p, m.parent? v = some p ∧ (m.Above p x → m.isState u = true ∧ m.parent? x = some p)

/-- The records are what the events tell, and unless the instance has terminated these make a whole chronicle. -/
def Attested (m : Model μ δ) (i : Instance δ) (events : List (Event μ δ)) : Prop :=
  (∀ q, i.current? q = m.lastIn? q events) ∧ ∃ Q, m.Chronicle Q ∅ ∅ Set.univ events ∧ (i.terminated = true ∨ Q = ∅)

theorem not_governs_of_isEnteredPlainly (hq : m.isEnteredPlainly q = true) (r : RegionId) : ¬ m.Governs r q := by
  simp only [isEnteredPlainly, Bool.and_eq_true, Bool.not_eq_true', beq_iff_eq] at hq
  obtain ⟨hunder, hkind⟩ := hq
  intro hr
  by_cases heq : r = q
  · subst heq
    rcases hr with ⟨_, hr⟩ | ⟨_, hr⟩ <;> rw [hkind] at hr <;> cases hr
  · obtain ⟨hencloses, hdeep⟩ := hr.resolve_left fun hr => heq hr.1
    obtain ⟨o, ho, habove⟩ := hencloses.resolve_left heq
    obtain ⟨region, hregion, rfl⟩ := owner?_eq_some.mp ho
    obtain ⟨⟨_, x⟩, hpath, rfl⟩ := List.mem_map.mp habove
    have : m.isUnderDeepHistory q = true := by
      rw [isUnderDeepHistory, hregion, Option.any_some, List.any_eq_true]
      exact ⟨_, hpath, by simp [hdeep]⟩
    rw [hunder] at this; cases this

theorem parents_eq (hp : m.parent? v = some p) : {q | m.parent? v = some q} = ({p} : Set RegionId) := by
  ext q
  exact ⟨fun hq => Option.some.inj (hq.symm.trans hp), fun hq => hq ▸ hp⟩

section
variable (h : m.Arena)
include h

theorem encloses_of_owner (hp : m.parent? v = some p) (hq : m.owner? q = some v) : m.Encloses p q :=
  Or.inr ⟨v, hq, above_parent h hp⟩

theorem not_encloses_parent (hp : m.parent? v = some p) (hq : m.owner? q = some v) : ¬ m.Encloses q p := by
  intro hqp
  cases encloses_antisymm h hqp (encloses_of_owner h hp hq)
  exact not_above_owner h hq (above_parent h hp)

theorem exists_parent_of_encloses {r : RegionId} (hq : m.owner? q = some v) (hr : m.Encloses r q) (hne : r ≠ q) :
    ∃ p, m.parent? v = some p ∧ m.Encloses r p := by
  have habove := above_owner hq hne hr
  rcases h.root_or_owner (vertex?_isSome_of_above habove) with rfl | ⟨p, _, hp, _, _⟩
  · exact absurd habove (not_above_root h r)
  · exact ⟨p, hp, (above_iff h hp r).mp habove⟩

theorem free_of_owner (hq : m.owner? q = some v) (hgoverned : ∀ p r, m.parent? v = some p →
      m.headKind? r = some .deepHistory → m.Encloses r p → deep = true ∨ r ∈ D ∨ ∀ x, m.Encloses p x → x ∈ F)
    (haside : ∀ u ∈ N, ¬ m.Above q u) : m.Free deep {x ∈ F | m.parent? v ≠ some x} D N q := by
  refine ⟨fun r hr hne => ?_, haside⟩
  have hdeep := (hr.resolve_left fun hr => hne hr.1).2
  obtain ⟨p, hp, hrp⟩ := exists_parent_of_encloses h hq hr.encloses hne
  refine (hgoverned p r hp hdeep hrp).imp id (Or.imp id fun hall x hx => ⟨?_, fun heq => ?_⟩)
  · exact hall x (encloses_trans h (encloses_of_owner h hp hq) hx)
  · exact not_encloses_parent h heq hq hx

theorem not_encloses_of_parent {x : RegionId} (hp : m.parent? v = some p) (hx : ¬ m.Encloses p x) :
    m.parent? v ≠ some x ∧ ∀ q ∈ m.regionsOf v, ¬ m.Encloses q x := by
  refine ⟨fun heq => ?_, fun q hq hqx => ?_⟩
  · rw [hp] at heq; cases heq
    exact hx (encloses_refl p)
  · exact hx (encloses_trans h (encloses_of_owner h hp (h.mem_regionsOf.mp hq)) hqx)

theorem Way.not_above {x u : VertexId} (hway : m.Way F D N v u) (hq : m.owner? q = some v) (hx : x ∈ N) (hne : x ≠ u) :
    ¬ m.Above q x := by
  intro hqx
  obtain ⟨p, hp, hdirect⟩ := (hway.aside x hx).resolve_left hne
  have hpx := (hdirect (above_trans h (encloses_of_owner h hp hq) x (vertex?_isSome_of_above hqx) hqx)).2
  exact not_encloses_parent h hp hq ((above_iff h hpx q).mp hqx)

theorem Way.free {u : VertexId} (hway : m.Way F D N v u) (hq : m.owner? q = some v) (hu : ¬ m.Above q u) (deep : Bool) :
    m.Free deep {x ∈ F | m.parent? v ≠ some x} D N q := by
  refine free_of_owner h hq (fun p r hp hdeep hrp => Or.inr (hway.cleared p hp r (Or.inr ⟨hrp, hdeep⟩)))
    fun x hx hqx => ?_
  by_cases hne : x = u
  · exact hu (hne ▸ hqx)
  · exact hway.not_above h hq hx hne hqx

theorem Way.next {w u : VertexId} (hway : m.Way F D N v u) (hq : m.owner? q = some v) (hw : m.parent? w = some q)
    (hled : q ∈ D) (waits : RegionId → Prop) (hwaits : waits q) :
    m.Way {x ∈ {x ∈ F | m.parent? v ≠ some x} | ∀ p ∈ m.regionsOf v, m.Encloses p x → waits p} D
      (N ∪ {x | ∃ p ∈ m.regionsOf v, ¬ waits p ∧ m.Above p x}) w u := by
  refine ⟨fun p hp r hr => ?_, fun x hx => or_iff_not_imp_left.mpr fun hne => ⟨q, hw, fun hqx => absurd hqx ?_⟩⟩
  · rw [hw] at hp; cases hp
    by_cases hne : r = q
    · rw [hne]; exact Or.inl hled
    obtain ⟨p, hp, hrp⟩ := exists_parent_of_encloses h hq hr.encloses hne
    refine (hway.cleared p hp r (hr.around hne hrp)).imp id fun hall x hx => ⟨⟨?_, fun heq => ?_⟩, fun p' hp' hpx => ?_⟩
    · exact hall x (encloses_trans h (encloses_of_owner h hp hq) hx)
    · exact not_encloses_parent h heq hq hx
    · rw [encloses_unique h (h.mem_regionsOf.mp hp') hq hpx hx]; exact hwaits
  · rcases hx with hx | ⟨p, hp, hnot, hpx⟩
    · exact hway.not_above h hq hx hne
    · intro hqx
      rw [above_unique h (h.mem_regionsOf.mp hp) hq hpx hqx] at hnot
      exact hnot hwaits

theorem Descent.above_of_mem {l : List VertexId} {u x : VertexId} (hl : m.Descent l u) (hx : x ∈ l)
    (hp : m.parent? x = some p) : m.Above p u := by
  obtain ⟨l₁, l₂, rfl⟩ := List.append_of_mem hx
  exact (hl.suffix (by simp)).above h hp

theorem Descent.encloses {w u x : VertexId} {rest : List VertexId} (hl : m.Descent (w :: rest) u) (hx : x ∈ rest)
    (hw : m.parent? w = some q) (hp : m.parent? x = some p) : m.Encloses q p ∧ q ≠ p := by
  generalize hlist : w :: rest = l at hl
  induction hl generalizing w rest q with
  | last u => cases hlist; cases hx
  | @step w w' u r rest' hw' hr _ ih =>
    cases hlist
    have hqr := encloses_of_owner h hw hr
    have hne : q ≠ r := by rintro rfl; exact not_above_owner h hr (above_parent h hw)
    rcases List.mem_cons.mp hx with rfl | hx
    · rw [hw'] at hp; cases hp
      exact ⟨hqr, hne⟩
    · obtain ⟨hrp, _⟩ := ih hx hw' rfl
      refine ⟨encloses_trans h hqr hrp, ?_⟩
      rintro rfl; exact hne (encloses_antisymm h hqr hrp)

end

end Model

namespace Eval

variable {m : Model μ δ} {past : List (Event μ δ)} {n : Nat} {c : Context σ} {mode : Mode μ}
variable {Q F F' D D' : Set RegionId} {N N' : Set VertexId} {i : Instance δ} {run run' : Run μ δ σ}

/-! ## Conditions on a run -/

def Unrefused (halt : Halt) (_ : Run μ δ σ) : Prop := ∀ error, halt ≠ .refused error

theorem lenient_unrefused : Lenient (Unrefused : Halt → Run μ δ σ → Prop) := fun _ _ hne => hne

structure Chronicled (m : Model μ δ) (past : List (Event μ δ)) (Q F D : Set RegionId) (N : Set VertexId)
    (run : Run μ δ σ) : Prop where
  recorded : ∀ q, run.inst.current? q = m.lastIn? q (run.events ++ past)
  chronicle : m.Chronicle Q F D N (run.events ++ past)

def Unfired (past : List (Event μ δ)) (run : Run μ δ σ) : Prop :=
  ∀ t trigger before, .fired t trigger before ∉ sinceOffer (run.events ++ past)

abbrev Proceeds (m : Model μ δ) (c : Context σ) (n : Nat) (mode : Mode μ) (P : Run μ δ σ → Prop) (l : List (Step μ δ))
    (R : Run μ δ σ → Prop) : Prop :=
  Does m (m.compileWith m.isEnteredPlainly) c Unrefused n mode P l R

namespace Chronicled

theorem mono (hk : Chronicled m past Q F D N run) (hF : F' ⊆ F) (hD : D' ⊆ D) (hN : N ⊆ N') :
    Chronicled m past Q F' D' N' run := ⟨hk.recorded, hk.chronicle.mono hF hD hN⟩

theorem congr {Q' : Set RegionId} (hk : Chronicled m past Q F D N run) (hQ : ∀ q, q ∈ Q ↔ q ∈ Q') (hF : F' ⊆ F)
    (hN : N ⊆ N') : Chronicled m past Q' F' D N' run := by
  obtain rfl : Q = Q' := Set.ext hQ
  exact hk.mono hF subset_rfl hN

section
variable (h : m.Arena)
include h

theorem neutral (hk : Chronicled m past Q F D N run) (others : List (Event μ δ))
    (hr : run'.inst.records = run.inst.records) (he : run'.events = others ++ run.events)
    (hothers : ∀ event ∈ others, m.Neutral event) : Chronicled m past Q F D N run' := by
  refine ⟨fun q => ?_, ?_⟩
  · rw [he, List.append_assoc, lastIn?_neutral hothers, ← hk.recorded q, Instance.current?, hr]; rfl
  · rw [he, List.append_assoc]; exact hk.chronicle.neutrals h hothers

theorem aloof : Aloof (Chronicled m past Q F D N : Run μ δ σ → Prop) := by
  intro run event s he hk
  refine hk.neutral h [event] rfl rfl fun e hmem => ?_
  rw [List.mem_singleton] at hmem
  subst hmem
  cases e <;> trivial

theorem proceeds_neutral {l : List (Step μ δ)} (hl : ∀ s ∈ l, IsInert s)
    (ho : ∀ event ∈ l.flatMap told, m.Neutral event) :
    Proceeds m c n mode (Chronicled m past Q F D N) l (Chronicled m past Q F D N) := by
  refine (Does.told lenient_unrefused.outOfFuel hl).post fun run ⟨run₀, hk, hr, _, _, hevents⟩ => ?_
  exact hk.neutral h _ hr hevents fun event hmem => ho event (List.mem_reverse.mp hmem)

theorem proceeds_effectsOf (ht : m.Tame) (t : TransitionId) :
    Proceeds m c n mode (Chronicled m past Q F D N) (m.effectsOf t) (Chronicled m past Q F D N) := by
  refine proceeds_neutral h (isInert_effectsOf ht t) fun event hmem => ?_
  rw [eq_of_mem_told_effectsOf hmem]
  trivial

theorem proceeds_pseudo {s : Step μ δ} {v : VertexId} (hv : m.isState v = false)
    (hs : s = .announceEnter (.vertex v) ∨ s = .announceLeave (.vertex v)) :
    Proceeds m c n mode (Chronicled m past Q F D N) [s] (Chronicled m past Q F D N) := by
  refine proceeds_neutral h (fun s' hs' => ?_) fun event hmem => ?_
  · rw [List.mem_singleton] at hs'; subst hs'
    rcases hs with rfl | rfl <;> trivial
  · rcases hs with rfl | rfl
    all_goals
      simp only [told, List.flatMap_cons, List.flatMap_nil, List.append_nil, List.mem_singleton] at hmem
      subst hmem; exact hv

end

end Chronicled

/-! ## Leaving -/

/-- States are being left. The records stay those of `i`, and the states that still stand are active. -/
structure Leaving (m : Model μ δ) (past : List (Event μ δ)) (i : Instance δ) (D : Set RegionId) (N : Set VertexId)
    (run : Run μ δ σ) : Prop where
  chronicled : Chronicled m past ∅ ∅ D N run
  records : run.inst.records = i.records
  rooted : .entered (.vertex root) ∈ run.events ++ past
  standing : ∀ s, m.isState s = true → IsIn s (run.events ++ past) → m.isActive i s = true

def Fallen (m : Model μ δ) (past : List (Event μ δ)) (Y : Set VertexId) (run : Run μ δ σ) : Prop :=
  ∀ w ∈ Y, m.isState w = true → ¬ IsIn w (run.events ++ past)

namespace Leaving

variable {Y : Set VertexId} {q : RegionId} {v : VertexId}

theorem current? (hk : Leaving m past i D N run) (q : RegionId) : run.inst.current? q = i.current? q := by
  rw [Instance.current?, hk.records]; rfl

section
variable (h : m.Arena)
include h

theorem known (hk : Leaving m past i D N run) (hv : m.isState v = true) (ha : m.isActive i v = true) :
    .entered (.vertex v) ∈ run.events ++ past := by
  rcases h.root_or_owner (vertex?_isSome_of_isState hv) with rfl | ⟨p, o, hp, ho, _⟩
  · exact hk.rooted
  · have hcurrent := ((isActive_step h hp ho).mp ha).1
    rw [← hk.current?, hk.chronicled.recorded] at hcurrent
    exact (mem_of_lastIn? hcurrent).1

theorem neutral (hk : Leaving m past i D N run ∧ Fallen m past Y run) (others : List (Event μ δ))
    (hr : run'.inst.records = run.inst.records) (he : run'.events = others ++ run.events)
    (ho : ∀ event ∈ others, m.Neutral event) : Leaving m past i D N run' ∧ Fallen m past Y run' := by
  refine ⟨⟨hk.1.chronicled.neutral h others hr he ho, hr.trans hk.1.records, ?_, fun s hs hin => ?_⟩,
    fun w hw hs hin => ?_⟩
  · rw [he, List.append_assoc]; exact List.mem_append_right others hk.1.rooted
  · rw [he, List.append_assoc, isIn_neutral ho hs] at hin
    exact hk.1.standing s hs hin
  · rw [he, List.append_assoc, isIn_neutral ho hs] at hin
    exact hk.2 w hw hs hin

theorem leave (hk : Leaving m past i D N run ∧ Fallen m past (Y ∪ m.Beneath v) run) (hv : m.isState v = true)
    (ha : m.isActive i v = true) (hr : run'.inst.records = run.inst.records)
    (he : run'.events = (m.exitEvents v).reverse ++ run.events) :
    Leaving m past i D N run' ∧ Fallen m past (Y ∪ {w | w = v ∨ w ∈ m.Beneath v}) run' := by
  have hleft : Leaving m past i D N { run with events := .left (.vertex v) :: run.events } ∧
      Fallen m past (Y ∪ {w | w = v ∨ w ∈ m.Beneath v}) { run with events := .left (.vertex v) :: run.events } := by
    refine ⟨⟨⟨fun q => hk.1.chronicled.recorded q, hk.1.chronicled.chronicle.leave (hk.1.known h hv ha)
      (fun w hw => hk.2 w (Or.inr hw)) fun q w hw => ?_⟩, hk.1.records, List.mem_cons_of_mem _ hk.1.rooted,
      fun s hs hin => hk.1.standing s hs ((isIn_cons hin).resolve_left (by simp))⟩, fun w hw hs hin => ?_⟩
    · rw [← hk.1.chronicled.recorded, hk.1.current?]
      exact (isActive_iff h (vertex?_isSome_of_isState hv)).mp ha q w hw
    · rcases hin.resolve_left (by simp) with ⟨hne, hin⟩
      rcases hw with hw | rfl | hw
      · exact hk.2 w (Or.inl hw) hs hin
      · exact hne rfl
      · exact hk.2 w (Or.inr hw) hs hin
  refine neutral h hleft (List.replicate (m.exitCount v) (.acted (.exit v))) hr ?_ fun event hmem => ?_
  · rw [he, exitEvents, List.reverse_cons, List.reverse_replicate, List.append_assoc]; rfl
  · cases List.eq_of_mem_replicate hmem
    trivial

theorem proceeds_leaveRegion (hL : ∀ k < n, ∀ (mode : Mode μ) v Y, m.isState v = true → m.isActive i v = true →
      Proceeds m c k mode (fun run : Run μ δ σ => Leaving m past i D N run ∧ Fallen m past Y run) (m.leaveVertex v)
        fun run => Leaving m past i D N run ∧ Fallen m past (Y ∪ {w | w = v ∨ w ∈ m.Beneath v}) run)
    {o : VertexId} (ho : m.owner? q = some o) (ha : m.isActive i o = true) :
    Proceeds m c n mode (fun run : Run μ δ σ => Leaving m past i D N run ∧ Fallen m past Y run) (leaveRegion q)
      fun run => Leaving m past i D N run ∧ Fallen m past (Y ∪ {w | m.Above q w}) run := by
  have hannounce : Proceeds m c n mode
      (fun run : Run μ δ σ => Leaving m past i D N run ∧ Fallen m past (Y ∪ {w | m.Above q w}) run)
      [.announceLeave (.region q)]
      fun run => Leaving m past i D N run ∧ Fallen m past (Y ∪ {w | m.Above q w}) run := by
    refine (Does.told lenient_unrefused.outOfFuel (by simp [IsInert])).post fun run hafter => ?_
    obtain ⟨run₀, hk, hr, _, _, he⟩ := hafter
    refine neutral h hk _ hr he fun event hmem => ?_
    cases List.mem_singleton.mp hmem
    trivial
  -- What still stands is active, so where nothing is recorded nothing stands.
  refine (Does.single lenient_unrefused.outOfFuel fun fuel hf => ?_).append hannounce
  refine triple_leaveRegion lenient_unrefused.outOfFuel (fun run v _ _ _ => lenient_unrefused.foreign v run)
    (fun run hk hnone => ⟨hk.1, fun w hw hs hin => ?_⟩) fun v k hk => Triple.assume fun run hrun => ?_
  · rcases hw with hw | hw
    · exact hk.2 w hw hs hin
    · obtain ⟨x, hx, _⟩ := current?_of_above h (vertex?_isSome_of_isState hs) (hk.1.standing w hs hin) hw
      rw [hk.1.current?, hx] at hnone; cases hnone
  · obtain ⟨hr, hv⟩ := hrun
    obtain ⟨_, hs, hp⟩ := mem_of_lastIn? ((hr.1.chronicled.recorded q).symm.trans hv)
    rw [hr.1.current?] at hv
    have hactive := (isActive_step h hp ho).mpr ⟨hv, ha⟩
    refine ((hL k (by omega) { mode with deep := false } v Y hs hactive k (Nat.le_refl k)).post
      fun _ run hk => ⟨hk.1, fun w hw hstate hin => ?_⟩).start hr
    rcases hw with hw | hw
    · exact hk.2 w (Or.inl hw) hstate hin
    · -- What is active beneath the region is its record, or beneath that.
      obtain ⟨x, hx, _, hway⟩ := current?_of_above h (vertex?_isSome_of_isState hstate) (hk.1.standing w hstate hin) hw
      rw [hv] at hx; cases hx
      refine hk.2 w (Or.inr (hway.imp Eq.symm fun hbelow => ?_)) hstate hin
      obtain ⟨r, hr, hrw⟩ := hbelow
      exact ⟨r, h.mem_regionsOf.mpr hr, hrw⟩

theorem proceeds_leaveVertex (ht : m.Tame) (n : Nat) : ∀ (mode : Mode μ) v Y, m.isState v = true →
    m.isActive i v = true →
    Proceeds m c n mode (fun run : Run μ δ σ => Leaving m past i D N run ∧ Fallen m past Y run) (m.leaveVertex v)
      fun run => Leaving m past i D N run ∧ Fallen m past (Y ∪ {w | w = v ∨ w ∈ m.Beneath v}) run := by
  induction n using Nat.strongRecOn with
  | ind n ih =>
  intro mode v Y hv ha
  obtain ⟨l, hl, htold, heq⟩ := leaveVertex_of_isState ht hv
  rw [heq]
  have hregions : Proceeds m c n mode (fun run : Run μ δ σ => Leaving m past i D N run ∧ Fallen m past Y run)
      ((m.regionsOf v).flatMap leaveRegion)
      fun run => Leaving m past i D N run ∧ Fallen m past (Y ∪ m.Beneath v) run := by
    -- Nothing stands any more beneath the regions that are no longer on the list `rs`.
    refine Does.conseq (Does.flatMap (I := fun rs run => Leaving m past i D N run ∧
      Fallen m past (Y ∪ {w | ∃ q ∈ m.regionsOf v, q ∉ rs ∧ m.Above q w}) run) _ fun done q rest hsplit => ?_)
      (fun run hk => ⟨hk.1, fun w hw => ?_⟩) fun run hk => ⟨hk.1, fun w hw => ?_⟩
    · have hq : q ∈ m.regionsOf v := by simp [← hsplit]
      refine (proceeds_leaveRegion h (fun k hk => ih k hk) (h.mem_regionsOf.mp hq) ha).post
        fun run hk => ⟨hk.1, fun w hw => hk.2 w ?_⟩
      rcases hw with hw | ⟨q', hq', hnot, hw⟩
      · exact Or.inl (Or.inl hw)
      · by_cases heq : q' = q
        · subst heq; exact Or.inr hw
        · exact Or.inl (Or.inr ⟨q', hq', by simp [heq, hnot], hw⟩)
    · exact hk.2 w (hw.resolve_right fun ⟨q, hq, hnot, _⟩ => hnot hq)
    · exact hk.2 w (hw.imp id fun ⟨q, hq, hw⟩ => ⟨q, hq, by simp, hw⟩)
  refine hregions.append ((Does.told lenient_unrefused.outOfFuel hl).post fun run ⟨run₀, hk, hr, _, _, he⟩ => ?_)
  rw [htold] at he
  exact leave h hk hv ha hr he

end

end Leaving

/-! ## Entering -/

namespace Chronicled

variable {v : VertexId}

section
variable (h : m.Arena) (ht : m.Tame)
include h

include ht in
theorem proceeds_beginEnterState (hv : m.isState v = true) :
    Proceeds m c n mode (fun run : Run μ δ σ => Chronicled m past (Q ∪ {p | m.parent? v = some p}) F D N run ∧
        ∀ q r w, m.parent? v = some q → m.Governs r q → run.inst.current? q = some w → v = w ∨ r ∈ D)
      (m.beginEnterVertex v)
      (Chronicled m past (Q ∪ {q | q ∈ m.regionsOf v}) {x ∈ F | m.parent? v ≠ some x} D N) := by
  obtain ⟨l, hl, htold, heq⟩ := beginEnterVertex_of_isState ht hv
  rw [heq]
  refine (Does.told lenient_unrefused.outOfFuel hl).append ?_
  have hacted : ∀ event ∈ List.replicate (m.entryCount v) (.acted (.entry v)), m.Neutral (event : Event μ δ) :=
    fun event hmem => by cases List.eq_of_mem_replicate hmem; trivial
  -- Between the announcement and the record the events are ahead of the instance by one entry.
  have hentered : ∀ run : Run μ δ σ, After l (fun run => Chronicled m past (Q ∪ {p | m.parent? v = some p}) F D N run ∧
      ∀ q r w, m.parent? v = some q → m.Governs r q → run.inst.current? q = some w → v = w ∨ r ∈ D) run →
      m.Chronicle (Q ∪ {q | q ∈ m.regionsOf v}) {x ∈ F | m.parent? v ≠ some x} D N (run.events ++ past) ∧
      ∀ q, m.lastIn? q (run.events ++ past) = if m.parent? v = some q then some v else run.inst.current? q := by
    rintro run ⟨run₀, ⟨hk, hback⟩, hr, _, _, hevents⟩
    rw [hevents, htold, entryEvents, List.reverse_cons, List.reverse_replicate, List.append_assoc, List.append_assoc]
    refine ⟨Chronicle.neutrals h (hk.chronicle.enter h hv (fun q r w hp hgoverns hw => ?_) fun q hq => hq) hacted,
      fun q => ?_⟩
    · exact hback q r w hp hgoverns ((hk.recorded q).trans hw)
    · rw [lastIn?_neutral hacted]
      split
      · exact lastIn?_entered hv (by assumption)
      · rename_i hne
        have hnone : m.entryInto? q (.entered (.vertex v)) = none := if_neg fun hboth => hne hboth.2
        rw [List.singleton_append, lastIn?_cons_of_none hnone, ← hk.recorded, Instance.current?, Instance.current?, hr]
  cases hparent : m.parent? v with
  | none =>
    refine Does.nil fun run hk => ?_
    obtain ⟨hchronicle, hlast⟩ := hentered run (hparent ▸ hk)
    refine ⟨fun q => ?_, hparent ▸ hchronicle⟩
    rw [hlast, hparent, if_neg (by simp)]
  | some p =>
    refine Does.single lenient_unrefused.outOfFuel fun fuel _ =>
      triple_record lenient_unrefused.outOfFuel fun run hk => ?_
    obtain ⟨hchronicle, hlast⟩ := hentered run (hparent ▸ hk)
    refine ⟨fun q => ?_, hparent ▸ hchronicle⟩
    rw [Run.events_update, hlast, hparent, Run.inst_update, Instance.current?_setCurrent]
    simp

/-- With this much fuel, what leads out of an initial vertex enters its region, where any state may be entered. -/
def Heads (m : Model μ δ) (past : List (Event μ δ)) (c : Context σ) (k : Nat) : Prop :=
  ∀ (trigger : Trigger μ) t record q Q F D N, m.transition? t = some record → m.parent? record.source = some q →
    m.isInitial record.source = true → m.Cleared F D q → (∀ u ∈ N, m.Above q u → u = record.source) →
    Triple (Chronicled m past (Q ∪ {q}) F D N) (follow m (m.compileWith m.isEnteredPlainly) c k trigger t)
      (fun _ => (Chronicled m past Q {x ∈ F | ¬ m.Encloses q x} D (N ∪ {u | m.Above q u}) : Run μ δ σ → Prop))
      Unrefused

def Enters (m : Model μ δ) (past : List (Event μ δ)) (c : Context σ) (n : Nat) : Prop :=
  ∀ (mode : Mode μ) q o Q F D N, mode.nested = true → m.owner? q = some o → m.Free mode.deep F D N q →
    Proceeds m c n mode (Chronicled m past (Q ∪ {q}) F D N) (m.endEnterRegion m.isEnteredPlainly q)
      (Chronicled m past Q {x ∈ F | ¬ m.Encloses q x} D (N ∪ {u | m.Above q u}) : Run μ δ σ → Prop)

/-- `v` has been entered, and so have its regions by default but for those that wait. -/
def Begun (m : Model μ δ) (past : List (Event μ δ)) (v : VertexId) (waits : RegionId → Prop) (Q F D : Set RegionId)
    (N : Set VertexId) : Run μ δ σ → Prop :=
  Chronicled m past (Q ∪ {q | q ∈ m.regionsOf v ∧ waits q}) {x ∈ F | ∀ q ∈ m.regionsOf v, m.Encloses q x → waits q} D
    (N ∪ {u | ∃ q ∈ m.regionsOf v, ¬ waits q ∧ m.Above q u})

omit h in
theorem Begun.congr {waits waits' : RegionId → Prop} {run : Run μ δ σ} (hk : Begun m past v waits Q F D N run)
    (hw : ∀ q, waits q ↔ waits' q) : Begun m past v waits' Q F D N run := by
  obtain rfl : waits = waits' := funext fun q => propext (hw q)
  exact hk

theorem proceeds_region (hR : Enters m past c n) (hmode : mode.nested = true) {q : RegionId} (hq : m.owner? q = some v)
    (hfree : m.Free mode.deep F D N q) {waits waits' : RegionId → Prop} (hw : ∀ p, waits p ↔ waits' p ∨ p = q)
    (hnot : ¬ waits' q) :
    Proceeds m c n mode (Begun m past v waits Q F D N) (m.endEnterRegion m.isEnteredPlainly q)
      (Begun m past v waits' Q F D N : Run μ δ σ → Prop) := by
  obtain rfl : waits = fun p => waits' p ∨ p = q := funext fun p => propext (hw p)
  have hmem := h.mem_regionsOf.mpr hq
  -- What has been entered so far lies in other regions of `v`, and so has no say in `q`.
  have hfreeNow : m.Free mode.deep {x ∈ F | ∀ p ∈ m.regionsOf v, m.Encloses p x → waits' p ∨ p = q} D
      (N ∪ {u | ∃ p ∈ m.regionsOf v, ¬ (waits' p ∨ p = q) ∧ m.Above p u}) q := by
    refine ⟨fun r hr hne => (hfree.governed r hr hne).imp id (Or.imp id fun hall x hx => ⟨hall x hx, ?_⟩),
      fun u hu hqu => ?_⟩
    · intro p hp hpx
      exact Or.inr (encloses_unique h (h.mem_regionsOf.mp hp) hq hpx hx)
    · rcases hu with hu | ⟨p, hp, hdone, hpu⟩
      · exact hfree.aside u hu hqu
      · exact hdone (Or.inr (above_unique h (h.mem_regionsOf.mp hp) hq hpu hqu))
  refine (hR mode q v (Q ∪ {p | p ∈ m.regionsOf v ∧ waits' p}) _ D _ hmode hq hfreeNow).conseq
    (fun run hk => Chronicled.congr hk (fun p => ?_) subset_rfl subset_rfl)
    fun run hk => hk.congr (fun p => Iff.rfl) (fun x hx => ?_) fun u hu => ?_
  · rw [Set.union_assoc]
    refine or_congr_right ⟨fun ⟨hp, hor⟩ => hor.imp (fun hwait => ⟨hp, hwait⟩) id, fun hor => ?_⟩
    rcases hor with ⟨hp, hwait⟩ | rfl
    · exact ⟨hp, Or.inl hwait⟩
    · exact ⟨hmem, Or.inr rfl⟩
  · exact ⟨⟨hx.1, fun p hp hpx => Or.inl (hx.2 p hp hpx)⟩, fun hqx => hnot (hx.2 q hmem hqx)⟩
  · rcases hu with (hu | ⟨p, hp, hdone, hpu⟩) | hqu
    · exact Or.inl hu
    · exact Or.inr ⟨p, hp, fun hwait => hdone (Or.inl hwait), hpu⟩
    · exact Or.inr ⟨q, hmem, hnot, hqu⟩

theorem proceeds_regions (hR : Enters m past c n) (hmode : mode.nested = true) (skips : RegionId → Bool)
    (hfree : ∀ q ∈ m.regionsOf v, skips q = false → m.Free mode.deep F D N q) :
    Proceeds m c n mode (Chronicled m past (Q ∪ {q | q ∈ m.regionsOf v}) F D N)
      ((m.regionsOf v).flatMap fun q =>
        beginEnterRegion q ++ if skips q then [] else m.endEnterRegion m.isEnteredPlainly q)
      (Begun m past v (fun q => skips q = true) Q F D N : Run μ δ σ → Prop) := by
  -- The regions on the list `rs` wait for their turn, and the skipped ones go on waiting.
  refine Does.conseq (Does.flatMap (I := fun rs => Begun m past v (fun q => q ∈ rs ∨ skips q = true) Q F D N) _
    fun done q rest hsplit => ?_) (fun run hk => ?_) fun run hk => hk.congr fun q => by simp
  · have hq : q ∈ m.regionsOf v := by simp [← hsplit]
    have hnodup := h.nodup_regionsOf v
    rw [← hsplit, List.nodup_append, List.nodup_cons] at hnodup
    have hannounce : Proceeds m c n mode (Begun m past v (fun p => p ∈ q :: rest ∨ skips p = true) Q F D N)
        (beginEnterRegion q) (Begun m past v (fun p => p ∈ q :: rest ∨ skips p = true) Q F D N) := by
      refine proceeds_neutral h (by simp [beginEnterRegion, IsInert]) fun event hmem => ?_
      cases List.mem_singleton.mp hmem
      trivial
    refine hannounce.append ?_
    cases hs : skips q with
    | true =>
      refine Does.nil fun run hk => hk.congr fun p => ?_
      by_cases hpq : p = q
      · simp [hpq, hs]
      · simp [hpq]
    | false =>
      refine proceeds_region h hR hmode (h.mem_regionsOf.mp hq) (hfree q hq hs) (fun p => ?_) fun hor => ?_
      · rw [List.mem_cons, or_assoc, or_comm]
      · rcases hor with hmem | hskip
        · exact hnodup.2.1.1 hmem
        · rw [hs] at hskip; cases hskip
  · exact hk.congr (fun q => or_congr_right ⟨fun hq => ⟨hq, Or.inl hq⟩, fun hq => hq.1⟩) (fun x hx => hx.1)
      Set.subset_union_left

theorem proceeds_endEnterState (hR : Enters m past c n) (hmode : mode.nested = true) (hv : m.isState v = true)
    (hfree : ∀ q ∈ m.regionsOf v, m.Free mode.deep F D N q) :
    Proceeds m c n mode (Chronicled m past (Q ∪ {q | q ∈ m.regionsOf v}) F D N)
      (m.endEnterVertex m.isEnteredPlainly v)
      (Chronicled m past Q {x ∈ F | ∀ q ∈ m.regionsOf v, ¬ m.Encloses q x} D (N ∪ m.Beneath v) :
        Run μ δ σ → Prop) := by
  have hall := proceeds_regions (Q := Q) h hR hmode (fun _ => false) fun q hq _ => hfree q hq
  rw [endEnterVertex_of_isState hv]
  simp only [Bool.false_eq_true, ite_false] at hall
  exact hall.post fun run hk => Chronicled.congr hk (fun q => by simp)
    (fun x hx => ⟨hx.1, fun q hq hqx => absurd hqx (hx.2 q hq)⟩)
    (Set.union_subset_union_right N fun u ⟨q, hq, _, hu⟩ => ⟨q, hq, hu⟩)

theorem proceeds_endEnterPseudo (he : m.EntersStates) (hH : ∀ k < n, Heads m past c k) (hmode : mode.nested = true)
    {q : RegionId} (hp : m.parent? v = some q) (hi : m.isInitial v = true) (hcleared : m.Cleared F D q)
    (haside : ∀ u ∈ N, m.Above q u → u = v) :
    Proceeds m c n mode (Chronicled m past (Q ∪ {q}) F D N) (m.endEnterPseudo v)
      (Chronicled m past Q {x ∈ F | ¬ m.Encloses q x} D (N ∪ {u | m.Above q u}) : Run μ δ σ → Prop) := by
  refine does_endEnterPseudo lenient_unrefused h he hp hi fun t record hrec hsource k hk => ?_
  refine triple_traverse lenient_unrefused.outOfFuel (fun j hj => ?_) (fun _ _ hk => hk) fun hn => by
    rw [hmode] at hn; cases hn
  exact hH j (by omega) mode.trigger t record q Q F D N hrec (hsource ▸ hp) (hsource ▸ hi) hcleared
    (hsource ▸ haside)

include ht in
theorem enters (he : m.EntersStates) (hH : ∀ k < n, Heads m past c k) : Enters m past c n := by
  induction n using Nat.strongRecOn with
  | ind n ih =>
  intro mode q o Q F D N hmode ho hfree
  obtain ⟨v, hv⟩ := exists_head h he ho
  have hi := isInitial_of_head? hv
  have hnested : ∀ deep, ({ mode with deep } : Mode μ).nested = true := fun _ => hmode
  refine does_endEnterRegion lenient_unrefused hv (fun run s hr => ?_) (fun w k hk _ => ?_) fun k hk deep => ?_
  · refine hr.neutral h [.entered (.vertex v)] rfl rfl fun event hmem => ?_
    cases List.mem_singleton.mp hmem
    exact isState_eq_false_of_isInitial hi
  · -- History brings back a state of the region.
    refine Triple.assume fun run ⟨hr, hw⟩ => ?_
    obtain ⟨_, hs, hpw⟩ := mem_of_lastIn? ((hr.recorded q).symm.trans hw)
    have hfreeBeneath : ∀ p ∈ m.regionsOf w, m.Free (mode.deep || m.headKind? q == some .deepHistory)
        {x ∈ F | m.parent? w ≠ some x} D N p := fun p hp => by
      refine free_of_owner h (h.mem_regionsOf.mp hp) (fun q' r hq' hdeep hrq => ?_) fun u hu hpu => ?_
      · rw [hpw] at hq'; cases hq'
        by_cases hne : r = q
        · subst hne; exact Or.inl (by simp [hdeep])
        · exact (hfree.governed r (Or.inr ⟨hrq, hdeep⟩) hne).imp (by simp +contextual) id
      · have hqp := encloses_of_owner h hpw (h.mem_regionsOf.mp hp)
        exact hfree.aside u hu (above_trans h hqp u (vertex?_isSome_of_above hpu) hpu)
    have hend : Proceeds m c k { mode with deep := mode.deep || m.headKind? q == some .deepHistory }
        (Chronicled m past (Q ∪ {q | q ∈ m.regionsOf w}) {x ∈ F | m.parent? w ≠ some x} D N)
        (m.endEnterVertex m.isEnteredPlainly w)
        (Chronicled m past Q {x ∈ F | ¬ m.Encloses q x} D (N ∪ {u | m.Above q u})) := by
      refine (proceeds_endEnterState h (ih k hk fun j hj => hH j (by omega)) (hnested _) hs hfreeBeneath).post
        fun run hk => hk.congr (fun _ => Iff.rfl) (fun x hx => ?_)
          (Set.union_subset_union_right N fun u hu => above_of_mem_beneath h hpw hu)
      obtain ⟨hparent, hbeneath⟩ := not_encloses_of_parent h hpw hx.2
      exact ⟨⟨hx.1, hparent⟩, hbeneath⟩
    refine (Triple.bind (proceeds_beginEnterState h ht hs k (Nat.le_refl k)) fun _ => hend k (Nat.le_refl k)).start
      ⟨by rw [parents_eq hpw]; exact hr, fun q' r w' hq' _ hw' => Or.inl ?_⟩
    rw [hpw] at hq'; cases hq'
    rw [hw] at hw'; exact Option.some.inj hw'
  · have hp := parent?_of_head? h hv
    have hdefault : ∀ F', m.Cleared F' D q → Proceeds m c k { mode with deep } (Chronicled m past (Q ∪ {q}) F' D N)
        (m.endEnterPseudo v)
        (Chronicled m past Q {x ∈ F' | ¬ m.Encloses q x} D (N ∪ {u | m.Above q u}) : Run μ δ σ → Prop) :=
      fun _ hcleared => proceeds_endEnterPseudo h he (fun j hj => hH j (by omega)) (hnested deep) hp hi hcleared
        fun u hu hqu => absurd hqu (hfree.aside u hu)
    cases hplain : m.isEnteredPlainly q with
    | true =>
      exact (hdefault F fun r hr => absurd hr (not_governs_of_isEnteredPlainly hplain r)).pre fun run hr => hr.1
    | false =>
      cases hrecalls : mode.deep || (m.headKind? q).any (·.isHistory) with
      | true =>
        -- Nothing has been recorded yet, so that nothing beneath has been entered.
        refine (hdefault (F ∪ {p | m.Encloses q p}) fun r hr => Or.inr fun p hp => Or.inr hp).conseq
          (fun run hr => ⟨hr.1.recorded, hr.1.chronicle.unentered h ?_⟩)
          fun run hr => hr.congr (fun _ => Iff.rfl) (fun x hx => ⟨Or.inl hx.1, hx.2⟩) subset_rfl
        rw [← hr.1.recorded]; exact hr.2 rfl rfl
      | false =>
        rw [Bool.or_eq_false_iff] at hrecalls
        refine (hdefault F fun r hr => ?_).pre fun run hr => hr.1
        by_cases hne : r = q
        · subst hne
          rcases hr with ⟨_, hr⟩ | ⟨_, hr⟩
          · rw [hrecalls.2] at hr; cases hr
          · rw [hr] at hrecalls; cases hrecalls.2
        · exact (hfree.governed r hr hne).resolve_left (by simp [hrecalls.1])

/-! ## The way down -/

def Arrived (m : Model μ δ) (past : List (Event μ δ)) (u : VertexId) (Q F D : Set RegionId) (N : Set VertexId)
    (run : Run μ δ σ) : Prop :=
  Chronicled m past Q F D N run ∨
    m.isState u = false ∧ run.inst.terminated = true ∧ ∃ Q', Chronicled m past Q' ∅ ∅ Set.univ run

omit h in
theorem led_of_cleared {run : Run μ δ σ} {q r : RegionId} {w : VertexId} (hcleared : m.Cleared F D q)
    (hk : Chronicled m past Q F D N run) (hr : m.Governs r q) (hw : run.inst.current? q = some w) : r ∈ D := by
  refine (hcleared r hr).resolve_right fun hall => ?_
  rw [hk.recorded, hk.chronicle.fresh q (hall q (encloses_refl q))] at hw
  cases hw

include ht in
theorem proceeds_enterState (hv : m.isState v = true) (hcleared : ∀ p, m.parent? v = some p → m.Cleared F D p) :
    Proceeds m c n mode (Chronicled m past (Q ∪ {p | m.parent? v = some p}) F D N) (m.beginEnterVertex v)
      (Chronicled m past (Q ∪ {q | q ∈ m.regionsOf v}) {x ∈ F | m.parent? v ≠ some x} D N : Run μ δ σ → Prop) :=
  (proceeds_beginEnterState h ht hv).pre fun _ hk =>
    ⟨hk, fun q _ _ hq hr hw => Or.inr (led_of_cleared (hcleared q hq) hk hr hw)⟩

include ht in
theorem proceeds_enterLast (hR : Enters m past c n) (hmode : mode.nested = true) {u : VertexId}
    (hs : m.isState u = true) (hway : m.Way F D N u u) :
    Proceeds m c n mode (Chronicled m past (Q ∪ {p | m.parent? u = some p}) F D N)
      (m.beginEnterVertex u ++ m.endEnterVertex m.isEnteredPlainly u)
      (Chronicled m past Q {x ∈ F | ∃ p, m.parent? u = some p ∧ ¬ m.Encloses p x} D (N ∪ m.Around u) :
        Run μ δ σ → Prop) := by
  have hfree : ∀ q ∈ m.regionsOf u, m.Free mode.deep {x ∈ F | m.parent? u ≠ some x} D N q := fun q hq =>
    hway.free h (h.mem_regionsOf.mp hq) (not_above_owner h (h.mem_regionsOf.mp hq)) mode.deep
  refine ((proceeds_enterState h ht hs hway.cleared).append (proceeds_endEnterState h hR hmode hs hfree)).post
    fun run hk => hk.congr (fun _ => Iff.rfl) (fun x hx => ?_)
      (Set.union_subset_union_right N (beneath_subset_around h u))
  obtain ⟨hF, p, hp, hnot⟩ := hx
  obtain ⟨hparent, hbeneath⟩ := not_encloses_of_parent h hp hnot
  exact ⟨⟨hF, hparent⟩, hbeneath⟩

theorem proceeds_enterPseudo (he : m.EntersStates) (hbranch : ∀ v, m.isBranch v = false)
    (hH : ∀ k < n, Heads m past c k) (hmode : mode.nested = true) {u : VertexId} (hu : (m.vertex? u).isSome)
    (hs : m.isState u = false) (hway : m.Way F D N u u) :
    Proceeds m c n mode (Chronicled m past (Q ∪ {p | m.parent? u = some p}) F D N)
      (m.beginEnterVertex u ++ m.endEnterVertex m.isEnteredPlainly u)
      (Arrived m past u Q {x ∈ F | ∃ p, m.parent? u = some p ∧ ¬ m.Encloses p x} D (N ∪ m.Around u) :
        Run μ δ σ → Prop) := by
  obtain ⟨p, hp⟩ := h.exists_parent? hu hs
  rw [parents_eq hp, around_eq hp, endEnterVertex_of_not_isState hu hs]
  have hannounce : Proceeds m c n mode (Chronicled m past (Q ∪ {p}) F D N) [.announceEnter (.vertex u)]
      (Chronicled m past (Q ∪ {p}) F D N : Run μ δ σ → Prop) := proceeds_pseudo h hs (Or.inl rfl)
  rcases beginEnterVertex_of_not_isState hu hs with ⟨heq, hkind⟩ | ⟨heq, hinitial⟩
  · have hi : m.isInitial u = true := hkind.resolve_right (by simp [hbranch])
    rw [heq]
    refine hannounce.append ((proceeds_endEnterPseudo h he hH hmode hp hi (hway.cleared p hp) fun x hx hpx => ?_).post
      fun run hk => Or.inl (hk.mono (fun x hx => ⟨hx.1, ?_⟩) subset_rfl subset_rfl))
    · refine (hway.aside x hx).resolve_right fun ⟨p', hp', hdirect⟩ => ?_
      rw [hp] at hp'; cases hp'
      rw [hs] at hdirect; cases (hdirect hpx).1
    · obtain ⟨p', hp', hnot⟩ := hx.2
      rw [hp] at hp'; cases hp'; exact hnot
  · rw [heq, endEnterPseudo, if_neg (by simp [hinitial]), List.append_nil]
    refine hannounce.append (Does.single lenient_unrefused.outOfFuel fun fuel _ =>
      triple_terminate lenient_unrefused.outOfFuel fun run hk => Or.inr ⟨hs, rfl, Q ∪ {p}, ?_⟩)
    exact ⟨hk.recorded, hk.chronicle.mono (Set.empty_subset F) (Set.empty_subset D) (Set.subset_univ N)⟩

include ht in
theorem proceeds_cascade (he : m.EntersStates) (hbranch : ∀ v, m.isBranch v = false) (hH : ∀ k < n, Heads m past c k)
    (hmode : mode.nested = true) {l : List VertexId} {u : VertexId} (hl : m.Descent l u) (hu : (m.vertex? u).isSome)
    {rest : List VertexId} (hlist : l = v :: rest) (hway : m.Way F D N v u)
    (hled : ∀ x ∈ rest, ∀ p, m.parent? x = some p → p ∈ D) :
    Proceeds m c n mode (Chronicled m past (Q ∪ {p | m.parent? v = some p}) F D N)
      (m.cascade m.isEnteredPlainly l ++ m.endEnterVertex m.isEnteredPlainly u)
      (Arrived m past u Q {x ∈ F | ∃ p, m.parent? v = some p ∧ ¬ m.Encloses p x} D (N ∪ m.Around v) :
        Run μ δ σ → Prop) := by
  have hR : Enters m past c n := enters h ht he hH
  induction hl generalizing v rest F N with
  | last u =>
    cases hlist
    rw [cascade]
    cases hs : m.isState u with
    | true => exact (proceeds_enterLast h ht hR hmode hs hway).post fun _ hk => Or.inl hk
    | false => exact proceeds_enterPseudo h he hbranch hH hmode hu hs hway
  | @step v' w u q rest' hw hq hrest ih =>
    cases hlist
    -- The regions that the way does not lead through may be entered by default, and then the way goes on from `w`.
    have hfree : ∀ p ∈ m.regionsOf v', decide (m.parent? w = some p) = false →
        m.Free mode.deep {x ∈ F | m.parent? v' ≠ some x} D N p := fun p hp hskip => by
      refine hway.free h (h.mem_regionsOf.mp hp) (fun hpu => ?_) mode.deep
      rw [above_unique h (h.mem_regionsOf.mp hp) hq hpu (hrest.above h hw)] at hskip
      simp [hw] at hskip
    have hall := proceeds_regions (Q := Q) (n := n) h hR hmode (fun p => decide (m.parent? w = some p)) hfree
    simp only [decide_eq_true_eq] at hall
    rw [cascade, List.append_assoc]
    have hnext := hway.next h hq hw (hled w (by simp) q hw) (fun p => m.parent? w = some p) hw
    refine ((proceeds_enterState h ht (h.isState_of_owner? hq) hway.cleared).append hall).append
      ((ih hu rfl hnext fun x hx => hled x (List.mem_cons_of_mem _ hx)).conseq
      (fun run hk => Chronicled.congr hk (fun p => or_congr_right ?_) subset_rfl subset_rfl) fun run hk => ?_)
    · refine ⟨fun hp => hp.2, fun hp => ⟨?_, hp⟩⟩
      rw [hw] at hp; cases hp
      exact h.mem_regionsOf.mpr hq
    · refine hk.imp (fun hk => hk.congr (fun _ => Iff.rfl) (fun x hx => ?_) fun x hx => ?_) id
      · obtain ⟨hF, p, hp, hnot⟩ := hx
        obtain ⟨hparent, hbeneath⟩ := not_encloses_of_parent h hp hnot
        refine ⟨⟨⟨hF, hparent⟩, fun p' hp' hpx => absurd hpx (hbeneath p' hp')⟩, q, hw, ?_⟩
        exact hbeneath q (h.mem_regionsOf.mpr hq)
      · rcases hx with (hx | ⟨p, hp, _, hx⟩) | hx
        · exact Or.inl hx
        · exact Or.inr (beneath_subset_around h v' ⟨p, hp, hx⟩)
        · exact Or.inr (beneath_subset_around h v' ⟨q, h.mem_regionsOf.mpr hq, hx q hw⟩)

include ht in
theorem proceeds_arrival (he : m.EntersStates) (hbranch : ∀ v, m.isBranch v = false) (hH : ∀ k < n, Heads m past c k)
    (hmode : mode.nested = true) (t : TransitionId) {u : VertexId} {rest : List VertexId}
    (hl : m.Descent (v :: rest) u) (hu : (m.vertex? u).isSome) (hway : m.Way F D N v u)
    (hled : ∀ x ∈ rest, ∀ p, m.parent? x = some p → p ∈ D) :
    Proceeds m c n mode (Chronicled m past (Q ∪ {p | m.parent? v = some p}) F D N)
      (m.arrival m.isEnteredPlainly t (v :: rest) u)
      (Arrived m past u Q {x ∈ F | ∃ p, m.parent? v = some p ∧ ¬ m.Encloses p x} D (N ∪ m.Around v) :
        Run μ δ σ → Prop) := by
  rw [arrival, List.append_assoc]
  exact (proceeds_effectsOf h ht t).append (proceeds_cascade h ht he hbranch hH hmode hl hu rfl hway hled)

include ht in
theorem heads (he : m.EntersStates) (hbranch : ∀ v, m.isBranch v = false) (n : Nat) : Heads m past c n := by
  induction n using Nat.strongRecOn with
  | ind n ih =>
  intro trigger t record q Q F D N hrec hp hi hcleared haside
  have hs := isState_eq_false_of_isInitial hi
  obtain ⟨u, hu, hstate, hqu⟩ := exists_target_of_initial h he hrec hp hi
  have hfired : ∀ run : Run μ δ σ, Chronicled m past (Q ∪ {q}) F D N run →
      Chronicled m past (Q ∪ {q}) F (D ∪ {r | m.LeadsInto r t}) (N ∪ {u}) (run.note (.fired t trigger run.inst)) := by
    intro run hk
    refine ⟨hk.recorded, hk.chronicle.fire ⟨hk.recorded, fun record' hrec' hsource => ?_, fun record' q' hrec' _ hq' =>
      ⟨fun x hx => ?_, fun x hx hqx => ?_⟩⟩ Set.subset_union_left fun record' x hrec' hx => Or.inr ?_⟩
    all_goals rw [hrec] at hrec'; cases hrec'
    · rw [hs] at hsource; cases hsource
    · rw [hp] at hq'; cases hq'
      rw [hu] at hx; cases hx
      exact hqu
    · rw [hp] at hq'; cases hq'
      exact haside x (hk.chronicle.aimed x hx) hqx
    · rw [hu] at hx; cases hx; rfl
  refine triple_follow_route lenient_unrefused hbranch hrec hfired (aloof h)
    (fun _ _ hk => ⟨hk.recorded, hk.chronicle⟩) fun i k hk => ?_
  obtain ⟨w, rest, hpw, hl, hsteps⟩ := steps_initial (u := u) hrec h hp hs hu hstate hqu i
  rw [hsteps, leaveVertex_of_not_isState (h.source_isSome hrec) hs]
  -- The way down is free: history has no say in `q`, and all regions further down have just been led into.
  have hway : m.Way F (D ∪ {r | m.LeadsInto r t}) (N ∪ {u}) w u := by
    refine ⟨fun p hp' r hr => ?_, fun x hx => hx.symm.imp id fun hx => ⟨q, hpw, fun hqx => ⟨hstate, ?_⟩⟩⟩
    · rw [hpw] at hp'; cases hp'
      exact (hcleared r hr).imp Or.inl id
    · rw [haside x hx hqx]; exact hp
  have hled : ∀ x ∈ rest, ∀ p, m.parent? x = some p → p ∈ D ∪ {r | m.LeadsInto r t} := by
    intro x hx p hpx
    obtain ⟨hqp, hne⟩ := hl.encloses h hx hpw hpx
    have hpu := Descent.above_of_mem h hl (List.mem_cons_of_mem w hx) hpx
    exact Or.inr ⟨record, u, hrec, hu, hpu, Or.inr fun ha => hne (encloses_antisymm h hqp ((above_iff h hp p).mp ha))⟩
  have harrive : Proceeds m c k { trigger, nested := true }
      (Chronicled m past (Q ∪ {p | m.parent? w = some p}) F (D ∪ {r | m.LeadsInto r t}) (N ∪ {u}))
      (m.arrival m.isEnteredPlainly t (w :: rest) u)
      (Arrived m past u Q {x ∈ F | ∃ p, m.parent? w = some p ∧ ¬ m.Encloses p x} (D ∪ {r | m.LeadsInto r t})
        ((N ∪ {u}) ∪ m.Around w)) :=
    proceeds_arrival h ht he hbranch (fun j hj => ih j (by omega)) rfl t hl (vertex?_isSome_of_isState hstate) hway hled
  have hleave : Proceeds m c k { trigger, nested := true }
      (Chronicled m past (Q ∪ {q}) F (D ∪ {r | m.LeadsInto r t}) (N ∪ {u})) [.announceLeave (.vertex record.source)]
      (Chronicled m past (Q ∪ {q}) F (D ∪ {r | m.LeadsInto r t}) (N ∪ {u}) : Run μ δ σ → Prop) :=
    proceeds_pseudo h hs (Or.inr rfl)
  rw [parents_eq hpw, around_eq hpw] at harrive
  refine ((hleave.append harrive).conseq (fun run hk => hk.1) fun run hk => ?_) k (Nat.le_refl k)
  rcases hk with hk | ⟨hfalse, _⟩
  · refine hk.mono (fun x hx => ⟨hx.1, q, hpw, hx.2⟩) Set.subset_union_left fun x hx => ?_
    rcases hx with (hx | rfl) | hx
    · exact Or.inl hx
    · exact Or.inr hqu
    · exact Or.inr hx
  · rw [hstate] at hfalse; cases hfalse

/-! ## Transitions -/

theorem leaving {run : Run μ δ σ} (hk : Chronicled m past ∅ ∅ D N run) (hstands : Stands m past v ∅ run) :
    Leaving m past run.inst D N run ∧ Fallen m past ∅ run := by
  refine ⟨⟨hk, rfl, ?_, fun s hs hin => ((hstands.1.2.isIn_iff hs).mp hin).1⟩, fun w hw => hw.elim⟩
  have hroot : IsIn root (run.events ++ past) :=
    (hstands.1.2.isIn_iff h.isState_root).mpr ⟨isActive_root h run.inst, Set.notMem_empty root⟩
  exact hroot.mem

theorem aloof_attested : Aloof fun run : Run μ δ σ => m.Attested run.inst (run.events ++ past) := by
  intro run event s he hk
  have hneutral : m.Neutral event := by cases event <;> trivial
  obtain ⟨hrecorded, Q, hchronicle, hQ⟩ := hk
  exact ⟨fun q => (hrecorded q).trans (lastIn?_cons_of_none (hneutral.entryInto? q)).symm, Q,
    hchronicle.neutral h hneutral, hQ⟩

theorem of_open {run : Run μ δ σ} (hk : Chronicled m past ∅ ∅ D N run) (hopen : Open m past v ∅ run) :
    Chronicled m past (∅ ∪ {p | m.parent? v = some p}) ∅ D N run := by
  refine ⟨hk.recorded, { hk.chronicle with whole := fun q o ho hmem => ?_, around := fun q hq p s hpq hs => ?_ }⟩
  · exact (hk.chronicle.whole q o ho hmem).imp id Or.inl
  · have hp : m.parent? v = some q := hq.resolve_left id
    obtain ⟨o, ho⟩ := h.owner?_of_parent? hp
    have hactive := hopen.2 q o hp ho
    refine (hopen.1.2.isIn_iff (h.isState_of_owner? hs)).mpr ⟨?_, ?_⟩
    · by_cases heq : p = q
      · rw [heq, ho] at hs; cases hs; exact hactive
      · have habove := above_owner ho heq hpq
        exact isActive_of_above h hs o (vertex?_isSome_of_above habove) hactive habove
    · rw [Set.empty_union, around_eq hp]
      intro hqs
      cases encloses_antisymm h hpq (Or.inr ⟨s, hs, hqs⟩)
      exact not_above_owner h hs hqs

omit h in
theorem attested {run : Run μ δ σ} (hk : Chronicled m past ∅ F D N run) :
    m.Attested run.inst (run.events ++ past) := by
  have hall := hk.mono (Set.empty_subset F) (Set.empty_subset D) (Set.subset_univ N)
  exact ⟨hall.recorded, ∅, hall.chronicle, Or.inr rfl⟩

omit h in
theorem Arrived.attested {run : Run μ δ σ} {u : VertexId} (hk : Arrived m past u ∅ F D N run) :
    m.Attested run.inst (run.events ++ past) := by
  rcases hk with hk | ⟨_, hterminated, Q, hk⟩
  · exact hk.attested
  · exact ⟨hk.recorded, Q, hk.chronicle, Or.inl hterminated⟩

theorem proceeds_leave {l : List (Step μ δ)} {s o e : VertexId} {Y : Set VertexId}
    (hcarries : Carries m past m.isEnteredPlainly c n mode (Stands m past o ∅) l (Open m past e ∅))
    (hleaves : Proceeds m c n mode (fun run : Run μ δ σ => Leaving m past i D N run ∧ Fallen m past ∅ run) l
      fun run => Leaving m past i D N run ∧ Fallen m past Y run) (ho : m.isActive i o = true) :
    Proceeds m c n mode
      (fun run : Run μ δ σ => (Stands m past s ∅ run ∧ Chronicled m past ∅ ∅ D N run) ∧ run.inst = i) l
      fun run => Open m past e ∅ run ∧ Chronicled m past ∅ ∅ D N run := by
  intro fuel hf
  refine ((hcarries fuel hf).and (hleaves fuel hf)).conseq ?_ (fun _ run hk => ⟨hk.1, hk.2.1.chronicled⟩)
    fun _ _ hk => hk.2
  rintro run ⟨⟨hstands, hk⟩, rfl⟩
  exact ⟨⟨hstands.1, ho⟩, hk.leaving h hstands⟩

section
variable {t : TransitionId} {record : Transition μ δ} (hrec : m.transition? t = some record)
variable (hs : m.isState record.source = true) (he : m.EntersStates) (hbranch : ∀ v, m.isBranch v = false)
include ht hrec hs he hbranch

theorem proceeds_arrives (hmode : mode.nested = true) {u : VertexId} (hu : record.target = some u)
    {rest : List VertexId} (hl : m.Descent (v :: rest) u) :
    Proceeds m c n mode (fun run => Open m past v ∅ run ∧ Chronicled m past ∅ ∅ {r | m.LeadsInto r t}
        {u | record.target = some u} run)
      (m.arrival m.isEnteredPlainly t (v :: rest) u)
      (fun run : Run μ δ σ => m.Attested run.inst (run.events ++ past)) := by
  have hled : ∀ r, m.Above r u → m.LeadsInto r t := fun r hr => ⟨record, u, hrec, hu, hr, Or.inl hs⟩
  have hway : m.Way ∅ {r | m.LeadsInto r t} {u | record.target = some u} v u := by
    refine ⟨fun p hp r hr => Or.inl (hled r ?_), fun x hx => Or.inl (Option.some.inj (hx.symm.trans hu))⟩
    have habove := hl.above h hp
    exact above_trans h hr.encloses u (vertex?_isSome_of_above habove) habove
  refine (proceeds_arrival h ht he hbranch (fun k _ => heads h ht he hbranch k) hmode t hl (h.target_isSome hrec hu)
    hway fun x hx p hp => hled p ?_).conseq (fun run hk => hk.2.of_open h hk.1) fun run hk => hk.attested
  exact Descent.above_of_mem h hl (List.mem_cons_of_mem v hx) hp

theorem proceeds_route (hmode : mode.nested = true) (i : Instance δ) (ha : m.isActive i record.source = true) :
    Proceeds m c n mode (fun run => (Stands m past record.source ∅ run ∧ Chronicled m past ∅ ∅ {r | m.LeadsInto r t}
        {u | record.target = some u} run) ∧ run.inst = i)
      ((m.route m.isEnteredPlainly t).steps i)
      (fun run : Run μ δ σ => m.Attested run.inst (run.events ++ past)) := by
  have hknown := h.source_isSome hrec
  obtain hu | ⟨u, hu⟩ := Option.eq_none_or_eq_some record.target
  · rw [steps_internal hrec hu]
    exact (proceeds_effectsOf h ht t).conseq (fun run hk => hk.1.2) fun run hk => hk.attested
  have huknown := h.target_isSome hrec hu
  -- That the right region has been left is for the books to say; the chronicle goes along with them.
  by_cases hlocal : m.IsLocal record u
  · obtain ⟨l, v, rest, r, hbelow, hp, hsteps, hrecorded⟩ := steps_local hrec h hu hlocal i
    obtain ⟨o, ho, hactive, hrest⟩ := exists_landing h hlocal huknown ha hbelow hp hrecorded
    rw [hsteps]
    refine (proceeds_leave h ?_
      (Leaving.proceeds_leaveRegion h (fun k _ => Leaving.proceeds_leaveVertex h ht k) ho hactive) hactive).append
      (proceeds_arrives h ht hrec hs he hbranch hmode hu hrest)
    exact (carries_leaveRegion h (fun k _ => carries_leaveVertex h ht k) ho fun w _ => Set.notMem_empty w).post
      fun run hk => hk.open_of_parent hp ho
  · obtain ⟨d, e, rest, hd, hdrop, hparent, hsteps⟩ := steps_direct hrec hu hlocal i
    have hmem : d ∈ m.chain record.source := List.mem_of_getElem? hd
    have hstate : m.isState d = true := by
      by_cases heq : d = record.source
      · rw [heq]; exact hs
      · exact isState_of_mem_chain h record.source hknown hmem heq
    have hactive := isActive_of_mem_chain h hknown ha hmem
    rw [hsteps]
    refine (proceeds_leave h ?_ (Leaving.proceeds_leaveVertex h ht n mode d ∅ hstate hactive) hactive).append
      (proceeds_arrives h ht hrec hs he hbranch hmode hu (descent_of_drop h huknown hdrop))
    exact (carries_leaveVertex h ht n mode d ∅ hstate (by simp)).post fun run hk => (hk.open h).congr_parent hparent

theorem triple_fire (n : Nat) (trigger : Trigger μ) :
    Triple (fun run => (Stands m past record.source ∅ run ∧ m.Attested run.inst (run.events ++ past) ∧
        run.inst.terminated = false) ∧ Unfired past run)
      (follow m m.compile c n trigger t) (fun _ run => m.Attested run.inst (run.events ++ past)) Unrefused := by
  refine triple_follow_route lenient_unrefused (T := fun run => Stands m past record.source ∅ run ∧
    Chronicled m past ∅ ∅ {r | m.LeadsInto r t} {u | record.target = some u} run) hbranch hrec
    (fun run hk => ?_) (aloof_attested h) (fun _ _ hk => hk) fun i k hk => Triple.assume fun run hr => ?_
  · obtain ⟨⟨hstands, ⟨hrecorded, Q, hchronicle, hQ⟩, hn⟩, hunfired⟩ := hk
    obtain rfl := hQ.resolve_left (by simp [hn])
    have hfiring : m.Firing t run.inst (run.events ++ past) := by
      refine ⟨hrecorded, fun _ _ _ => hunfired, fun record' q hrec' hnot => ?_⟩
      rw [hrec] at hrec'; cases hrec'
      rw [hs] at hnot; cases hnot
    have hfired : m.Chronicle ∅ ∅ (∅ ∪ {r | m.LeadsInto r t}) {u | record.target = some u}
        (.fired t trigger run.inst :: (run.events ++ past)) := by
      refine (hchronicle.unfired hunfired).fire hfiring (Set.empty_subset _) fun record' u hrec' hu => ?_
      rw [hrec] at hrec'; cases hrec'
      exact hu
    exact ⟨(steady_stands h record.source).blind.fired run hstands, hrecorded,
      hfired.mono subset_rfl Set.subset_union_right subset_rfl⟩
  · exact (proceeds_route h ht hrec hs he hbranch rfl i (hr.2 ▸ hr.1.1.2) k (Nat.le_refl k)).start hr

end

end

end Chronicled

end Eval

end Statechart
