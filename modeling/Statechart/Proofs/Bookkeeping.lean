import Statechart.Proofs.Turns
import Statechart.Proofs.Unbranched

/-!
# Keeping the books

Between calls the states that have been entered last are the active ones. While a transition is followed this holds
apart from the vertices that have been left and are still to be entered, where there are no branches and regions lead to
states by default.
-/

namespace Statechart

open Model Eval

variable {μ δ σ : Type}

namespace Model

/-- The records fit, and unless the instance has terminated the configuration is balanced. -/
def Kept (m : Model μ δ) (i : Instance δ) (events : List (Event μ δ)) : Prop :=
  m.Fits true i ∧ ∃ X, m.Balanced X i events ∧ (i.terminated = true ∨ X = ∅)

end Model

namespace Eval

variable {m : Model μ δ} {past : List (Event μ δ)} {X Y : Set VertexId} {P R : Run μ δ σ → Prop} {n : Nat}
variable {plainly : RegionId → Bool} {c : Context σ} {mode : Mode μ}

/-! ## Conditions on a run -/

/-- The records fit, and the configuration is balanced apart from `X`. The events of earlier calls are `past`. -/
def Books (m : Model μ δ) (past : List (Event μ δ)) (X : Set VertexId) (run : Run μ δ σ) : Prop :=
  m.Fits true run.inst ∧ m.Balanced X run.inst (run.events ++ past)

def Stands (m : Model μ δ) (past : List (Event μ δ)) (v : VertexId) (X : Set VertexId) (run : Run μ δ σ) : Prop :=
  Books m past X run ∧ m.isActive run.inst v = true

/-- All around `v` has been left, and the owner of the region of `v` is active. -/
def Open (m : Model μ δ) (past : List (Event μ δ)) (v : VertexId) (X : Set VertexId) (run : Run μ δ σ) : Prop :=
  Books m past (X ∪ m.Around v) run ∧
    ∀ r o, m.parent? v = some r → m.owner? r = some o → m.isActive run.inst o = true

def Resting (m : Model μ δ) (past : List (Event μ δ)) (run : Run μ δ σ) : Prop := m.Kept run.inst (run.events ++ past)

def Stops (m : Model μ δ) (past : List (Event μ δ)) (halt : Halt) (run : Run μ δ σ) : Prop :=
  ∀ error, halt = .refused error → Resting m past run

/-- The condition looks at the records and at what is told of states. -/
def Steady (m : Model μ δ) (P : Run μ δ σ → Prop) : Prop :=
  ∀ run run' others, run'.inst.records = run.inst.records → run'.events = others ++ run.events →
    (∀ s, m.isState s = true → others.filter (·.isOf s) = []) → P run → P run'

theorem Steady.begin (hP : Steady m P) (run : Run μ δ σ) (element : Element) (s : σ)
    (he : ∀ v, element = .vertex v → m.isState v = false) (hr : P run) :
    P { run.note (.entered element) with outside := s } := by
  refine hP run _ [.entered element] rfl rfl (fun w hw => ?_) hr
  cases element with
  | region q => rfl
  | vertex v =>
    have hne : v ≠ w := by rintro rfl; rw [he v rfl] at hw; cases hw
    simp [Event.isOf, hne]

theorem filter_of_isAside {event : Event μ δ} (he : IsAside event) (s : VertexId) :
    [event].filter (·.isOf s) = [] := by
  cases event <;> first | rfl | cases he

theorem Steady.blind (hP : Steady m P) : Blind P := fun run event _ he hr =>
  hP run _ [event] rfl rfl (fun s _ => filter_of_isAside he s) hr

theorem lenient_stops : Lenient (Stops m past : Halt → Run μ δ σ → Prop) := lenient_refuses

theorem stops_outOfFuel {P : Run μ δ σ → Prop} (run : Run μ δ σ) (_ : P run) : Stops m past .outOfFuel run := by
  rintro _ ⟨⟩

section
variable (h : m.Arena)
include h

theorem steady_books : Steady m (Books m past X : Run μ δ σ → Prop) := by
  intro run run' others hr he ho hk
  refine ⟨hk.1.congr hr, ?_⟩
  rw [he, List.append_assoc]
  exact (hk.2.skip ho).congr h hr fun _ _ _ => Iff.rfl

theorem steady_stands (v : VertexId) : Steady m (Stands m past v X : Run μ δ σ → Prop) := by
  intro run run' others hr he ho hk
  refine ⟨steady_books h run run' others hr he ho hk.1, ?_⟩
  rw [isActive_of_records hr]; exact hk.2

theorem steady_open (v : VertexId) : Steady m (Open m past v X : Run μ δ σ → Prop) := by
  intro run run' others hr he ho hk
  refine ⟨steady_books h run run' others hr he ho hk.1, fun r o hp hown => ?_⟩
  rw [isActive_of_records hr]; exact hk.2 r o hp hown

theorem Books.congr {run : Run μ δ σ} (hk : Books m past X run)
    (hX : ∀ s, m.isState s = true → m.isActive run.inst s = true → (s ∈ X ↔ s ∈ Y)) : Books m past Y run :=
  ⟨hk.1, hk.2.congr h rfl hX⟩

theorem Stands.open {run : Run μ δ σ} {v : VertexId} (hk : Stands m past v (X ∪ m.Around v) run) :
    Open m past v X run :=
  ⟨hk.1, fun _ _ hp ho => ((isActive_step h hp ho).mp hk.2).2⟩

end

theorem Books.resting {run : Run μ δ σ} (hk : Books m past X run) (hX : run.inst.terminated = true ∨ X = ∅) :
    Resting m past run := ⟨hk.1, X, hk.2, hX⟩

theorem Resting.books {run : Run μ δ σ} (hk : Resting m past run) (hn : run.inst.terminated = false) :
    Books m past ∅ run := by
  obtain ⟨hfits, X, hbalanced, ht | rfl⟩ := hk
  · rw [hn] at ht; cases ht
  · exact ⟨hfits, hbalanced⟩

theorem blind_resting (h : m.Arena) : Blind (Resting m past : Run μ δ σ → Prop) := by
  intro run event s he ⟨hfits, X, hbalanced, hX⟩
  exact ⟨hfits, X, ((steady_books h).blind run event s he ⟨hfits, hbalanced⟩).2, hX⟩

/-! ## Sequences that keep the books -/

/-- Performed with at most this much fuel, the steps lead from `P` to `R`, or stop short when the run is over. -/
abbrev Carries (m : Model μ δ) (past : List (Event μ δ)) (plainly : RegionId → Bool) (c : Context σ) (n : Nat)
    (mode : Mode μ) (P : Run μ δ σ → Prop) (l : List (Step μ δ)) (R : Run μ δ σ → Prop) : Prop :=
  Does m (m.compileWith plainly) c (Stops m past) n mode P l R

theorem carries_aside {l : List (Step μ δ)} (hl : ∀ s ∈ l, IsInert s)
    (ho : ∀ s, m.isState s = true → (l.flatMap told).filter (·.isOf s) = []) (hP : Steady m P) :
    Carries m past plainly c n mode P l P := by
  refine (Does.told stops_outOfFuel hl).post fun run ⟨run₀, hr₀, hrecords, _, _, hevents⟩ => ?_
  refine hP run₀ run _ hrecords hevents (fun s hs => ?_) hr₀
  rw [List.filter_reverse, ho s hs]; rfl

theorem carries_announceEnter (r : RegionId) (hP : Steady m P) :
    Carries m past plainly c n mode P [.announceEnter (.region r)] P :=
  carries_aside (by simp [IsInert]) (fun _ _ => rfl) hP

theorem carries_announceLeave (r : RegionId) (hP : Steady m P) :
    Carries m past plainly c n mode P [.announceLeave (.region r)] P :=
  carries_aside (by simp [IsInert]) (fun _ _ => rfl) hP

theorem carries_pseudo {s : Step μ δ} {v : VertexId} (hv : m.isState v = false)
    (hs : s = .announceEnter (.vertex v) ∨ s = .announceLeave (.vertex v)) (hP : Steady m P) :
    Carries m past plainly c n mode P [s] P := by
  have hne : ∀ w, m.isState w = true → v ≠ w := by rintro w hw rfl; rw [hv] at hw; cases hw
  refine carries_aside (fun s' hs' => ?_) (fun w hw => ?_) hP
  · rw [List.mem_singleton] at hs'; subst hs'; rcases hs with rfl | rfl <;> trivial
  · rcases hs with rfl | rfl <;> simp [told, Event.isOf, hne w hw]

theorem carries_effectsOf (ht : m.Tame) (t : TransitionId) (hP : Steady m P) :
    Carries m past plainly c n mode P (m.effectsOf t) P := by
  refine carries_aside (isInert_effectsOf ht t) (fun s _ => ?_) hP
  unfold effectsOf
  cases m.transition? t with
  | none => rfl
  | some record => simp [flatMap_told_act, Event.isOf]

/-! ## Leaving -/

theorem around_eq {v : VertexId} {r : RegionId} (hp : m.parent? v = some r) : m.Around v = {w | m.Above r w} := by
  ext w
  exact ⟨fun hw => hw r hp, fun hw q hq => by rw [hp] at hq; cases hq; exact hw⟩

section
variable (h : m.Arena)
include h

theorem carries_leaveRegion (hL : ∀ k < n, ∀ (mode : Mode μ) v X, m.isState v = true →
      (∀ w ∈ m.Around v, w ∉ X) → Carries m past plainly c k mode (Stands m past v X) (m.leaveVertex v)
        (Stands m past v (X ∪ m.Around v) : Run μ δ σ → Prop))
    {q : RegionId} {o : VertexId} (ho : m.owner? q = some o) (hX : ∀ w, m.Above q w → w ∉ X) :
    Carries m past plainly c n mode (Stands m past o X) (leaveRegion q)
      (Stands m past o (X ∪ {w | m.Above q w}) : Run μ δ σ → Prop) := by
  refine (Does.single stops_outOfFuel fun fuel hf => ?_).append (carries_announceLeave q (steady_stands h o))
  refine triple_leaveRegion stops_outOfFuel (fun _ _ _ _ _ _ he => by cases he) (fun run hk hnone => ?_)
    fun v k hk => Triple.assume fun run ⟨hr, hv⟩ => ?_
  · refine ⟨hk.1.congr h fun s hs ha => ⟨Or.inl, fun hmem => hmem.resolve_right fun hq => ?_⟩, hk.2⟩
    obtain ⟨w, hw, _⟩ := current?_of_above h (vertex?_isSome_of_isState hs) ha hq
    rw [hnone] at hw; cases hw
  · obtain ⟨hp, hs⟩ := hr.1.1 q v hv
    have hv' : m.isActive run.inst v = true := (isActive_step h hp ho).mpr ⟨hv, hr.2⟩
    refine ((hL k (by omega) { mode with deep := false } v X (hs rfl) (fun w hw => hX w (hw q hp)) k
      (Nat.le_refl k)).post fun _ run hk => ?_).start ⟨hr.1, hv'⟩
    rw [around_eq hp] at hk
    exact ⟨hk.1, ((isActive_step h hp ho).mp hk.2).2⟩

theorem carries_leaveVertex (ht : m.Tame) (n : Nat) : ∀ (mode : Mode μ) v X, m.isState v = true →
    (∀ w ∈ m.Around v, w ∉ X) → Carries m past plainly c n mode (Stands m past v X) (m.leaveVertex v)
      (Stands m past v (X ∪ m.Around v) : Run μ δ σ → Prop) := by
  -- To leave a region takes one from the fuel, so what it records is left by the induction hypothesis.
  induction n using Nat.strongRecOn with
  | ind n ih =>
  intro mode v X hv hX
  obtain ⟨l, hl, htold, heq⟩ := leaveVertex_of_isState ht hv
  rw [heq]
  -- First the regions, one after the other: all beneath those that are no longer listed has been left. Then the vertex.
  refine Does.append (R := Stands m past v (X ∪ m.Beneath v)) ?_ ?_
  · refine Does.conseq (Does.flatMap
      (I := fun rs => Stands m past v (X ∪ {w | ∃ q ∈ m.regionsOf v, q ∉ rs ∧ m.Above q w})) _
      fun done q rest hsplit => ?_) (fun run hk => ⟨hk.1.congr h fun s _ _ => ?_, hk.2⟩)
      fun run hk => ⟨hk.1.congr h fun s _ _ => ?_, hk.2⟩
    · have hq : q ∈ m.regionsOf v := by simp [← hsplit]
      have hnodup := h.nodup_regionsOf v
      rw [← hsplit, List.nodup_append, List.nodup_cons] at hnodup
      refine (carries_leaveRegion h (fun k hk => ih k hk) (h.mem_regionsOf.mp hq) fun w hw hmem => ?_).post
        fun run hk => ⟨hk.1.congr h fun s _ _ => ?_, hk.2⟩
      · rcases hmem with hmem | ⟨q', hq', hne, hw'⟩
        · exact hX w (beneath_subset_around h v ⟨q, hq, hw⟩) hmem
        · have := above_unique h (h.mem_regionsOf.mp hq') (h.mem_regionsOf.mp hq) hw' hw
          exact hne (by simp [this])
      · constructor
        · rintro ((hs | ⟨q', hq', hne, hw⟩) | hw)
          · exact Or.inl hs
          · exact Or.inr ⟨q', hq', fun hmem => hne (List.mem_cons_of_mem q hmem), hw⟩
          · exact Or.inr ⟨q, hq, hnodup.2.1.1, hw⟩
        · rintro (hs | ⟨q', hq', hne, hw⟩)
          · exact Or.inl (Or.inl hs)
          · by_cases heq : q' = q
            · subst heq; exact Or.inr hw
            · exact Or.inl (Or.inr ⟨q', hq', by simp [heq, hne], hw⟩)
    · exact ⟨Or.inl, fun hs => hs.resolve_right fun ⟨q, hq, hne, _⟩ => hne hq⟩
    · exact or_congr_right ⟨fun ⟨q, hq, _, hw⟩ => ⟨q, hq, hw⟩, fun ⟨q, hq, hw⟩ => ⟨q, hq, by simp, hw⟩⟩
  · refine (Does.told stops_outOfFuel hl).post fun run ⟨run₀, hk, hrecords, _, _, hevents⟩ => ?_
    have hactive : m.isActive run.inst v = true := (isActive_of_records hrecords v).trans hk.2
    refine ⟨⟨hk.1.1.congr hrecords, ?_⟩, hactive⟩
    have hbefore : m.Balanced (X ∪ m.Beneath v) run.inst (run₀.events ++ past) :=
      hk.1.2.congr h hrecords fun _ _ _ => Iff.rfl
    have hleft := hbefore.leave h hv hactive (hX v (mem_around_self h v))
    rw [hevents, htold, List.append_assoc]
    exact hleft

end

/-! ## Entering -/

section
variable (h : m.Arena) (ht : m.Tame)
include h ht

theorem carries_beginEnterState {v : VertexId} (hv : m.isState v = true) (hX : v ∉ X) :
    Carries m past plainly c n mode (Open m past v X) (m.beginEnterVertex v)
      (Stands m past v (X ∪ m.Beneath v) : Run μ δ σ → Prop) := by
  obtain ⟨l, hl, htold, heq⟩ := beginEnterVertex_of_isState ht hv
  rw [heq]
  refine (Does.told stops_outOfFuel hl).append ?_
  have hbefore : ∀ run : Run μ δ σ, After l (Open m past v X) run → m.Fits true run.inst ∧
      ∃ events, m.Balanced (X ∪ m.Around v) run.inst events ∧
        run.events ++ past = (m.entryEvents v).reverse ++ events ∧
        ∀ r o, m.parent? v = some r → m.owner? r = some o → m.isActive run.inst o = true := by
    rintro run ⟨run₀, hk, hrecords, _, _, hevents⟩
    refine ⟨hk.1.1.congr hrecords, _, hk.1.2.congr h hrecords fun _ _ _ => Iff.rfl, ?_, fun r o hp ho => ?_⟩
    · rw [hevents, htold, List.append_assoc]
    · rw [isActive_of_records hrecords]; exact hk.2 r o hp ho
  rcases h.root_or_owner (vertex?_isSome_of_isState hv) with rfl | ⟨r, o, hp, ho, _⟩
  · rw [h.parent?_root]
    refine Does.nil fun run hk => ?_
    obtain ⟨hfits, events, hb, hevents, _⟩ := hbefore run hk
    exact ⟨⟨hfits, hevents ▸ hb.enter_root h hX⟩, isActive_root h run.inst⟩
  · rw [hp]
    refine Does.single stops_outOfFuel fun fuel _ => triple_record stops_outOfFuel fun run hk => ?_
    obtain ⟨hfits, events, hb, hevents, howner⟩ := hbefore run hk
    obtain ⟨hentered, hactive⟩ := hb.enter h hv hp ho (howner r o hp ho) hX
    refine ⟨⟨hfits.setCurrent hp fun _ => hv, ?_⟩, hactive⟩
    rw [Run.events_update, hevents]; exact hentered

def Enters (m : Model μ δ) (past : List (Event μ δ)) (plainly : RegionId → Bool) (c : Context σ) (n : Nat) : Prop :=
  ∀ (mode : Mode μ) q o X, mode.nested = true → m.owner? q = some o → (∀ w, m.Above q w → w ∉ X) →
    Carries m past plainly c n mode (Stands m past o (X ∪ {w | m.Above q w})) (m.endEnterRegion plainly q)
      (Stands m past o X : Run μ δ σ → Prop)

omit ht in
theorem carries_regions (hR : Enters m past plainly c n) (hmode : mode.nested = true) {v : VertexId}
    (hX : ∀ w ∈ m.Beneath v, w ∉ X) (skips : RegionId → Bool) :
    Carries m past plainly c n mode (Stands m past v (X ∪ m.Beneath v))
      ((m.regionsOf v).flatMap fun q => beginEnterRegion q ++ if skips q then [] else m.endEnterRegion plainly q)
      (Stands m past v (X ∪ {w | ∃ q ∈ m.regionsOf v, skips q = true ∧ m.Above q w}) : Run μ δ σ → Prop) := by
  -- Still to be entered is what is beneath the regions on the list `rs`, and beneath those that are skipped.
  refine Does.conseq (Does.flatMap
    (I := fun rs => Stands m past v (X ∪ {w | ∃ q ∈ m.regionsOf v, (q ∈ rs ∨ skips q = true) ∧ m.Above q w})) _
    fun done q rest hsplit => ?_) (fun run hk => ⟨hk.1.congr h fun s _ _ => ?_, hk.2⟩)
    fun run hk => ⟨hk.1.congr h fun s _ _ => ?_, hk.2⟩
  · have hq : q ∈ m.regionsOf v := by simp [← hsplit]
    have hnodup := h.nodup_regionsOf v
    rw [← hsplit, List.nodup_append, List.nodup_cons] at hnodup
    refine (carries_announceEnter q (steady_stands h v)).append ?_
    cases hs : skips q with
    | true =>
      refine Does.nil fun run hk => ⟨hk.1.congr h fun s _ _ => or_congr_right ?_, hk.2⟩
      constructor
      · rintro ⟨q', hq', hmem, hw⟩
        by_cases heq : q' = q
        · subst heq; exact ⟨q', hq', Or.inr hs, hw⟩
        · exact ⟨q', hq', hmem.imp (fun hm => (List.mem_cons.mp hm).resolve_left heq) id, hw⟩
      · rintro ⟨q', hq', hmem, hw⟩
        exact ⟨q', hq', hmem.imp (List.mem_cons_of_mem q) id, hw⟩
    | false =>
      refine (hR mode q v (X ∪ {w | ∃ q ∈ m.regionsOf v, (q ∈ rest ∨ skips q = true) ∧ m.Above q w}) hmode
        (h.mem_regionsOf.mp hq) fun w hw hmem => ?_).pre fun run hk => ⟨hk.1.congr h fun s _ _ => ?_, hk.2⟩
      · rcases hmem with hmem | ⟨q', hq', hmem, hw'⟩
        · exact hX w ⟨q, hq, hw⟩ hmem
        · have := above_unique h (h.mem_regionsOf.mp hq') (h.mem_regionsOf.mp hq) hw' hw
          subst this
          rcases hmem with hmem | hskip
          · exact hnodup.2.1.1 hmem
          · rw [hs] at hskip; cases hskip
      · constructor
        · rintro (hs' | ⟨q', hq', hmem, hw⟩)
          · exact Or.inl (Or.inl hs')
          · by_cases heq : q' = q
            · subst heq; exact Or.inr hw
            · exact Or.inl (Or.inr ⟨q', hq', hmem.imp (fun hm => (List.mem_cons.mp hm).resolve_left heq) id, hw⟩)
        · rintro ((hs' | ⟨q', hq', hmem, hw⟩) | hw)
          · exact Or.inl hs'
          · exact Or.inr ⟨q', hq', hmem.imp (List.mem_cons_of_mem q) id, hw⟩
          · exact Or.inr ⟨q, hq, Or.inl (by simp), hw⟩
  · exact or_congr_right ⟨fun ⟨q, hq, hw⟩ => ⟨q, hq, Or.inl hq, hw⟩, fun ⟨q, hq, _, hw⟩ => ⟨q, hq, hw⟩⟩
  · exact or_congr_right ⟨fun ⟨q, hq, hmem, hw⟩ => ⟨q, hq, hmem.resolve_left (by simp), hw⟩,
      fun ⟨q, hq, hs, hw⟩ => ⟨q, hq, Or.inr hs, hw⟩⟩

omit ht in
theorem carries_endEnterState (hR : Enters m past plainly c n) (hmode : mode.nested = true) {v : VertexId}
    (hv : m.isState v = true) (hX : ∀ w ∈ m.Beneath v, w ∉ X) :
    Carries m past plainly c n mode (Stands m past v (X ∪ m.Beneath v)) (m.endEnterVertex plainly v)
      (Stands m past v X : Run μ δ σ → Prop) := by
  have hall := carries_regions h hR hmode hX fun _ => false
  rw [endEnterVertex_of_isState hv]
  simp only [Bool.false_eq_true, ite_false] at hall
  exact hall.post fun run hk => ⟨hk.1.congr h fun s _ _ => by simp, hk.2⟩

/-! ## The way down -/

def Reached (m : Model μ δ) (past : List (Event μ δ)) (u : VertexId) (X : Set VertexId) (run : Run μ δ σ) : Prop :=
  m.isState u = true ∧ Stands m past u (X ∪ m.Beneath u) run ∨
    m.isState u = false ∧ m.isInitial u = true ∧ Open m past u X run ∨
    m.isState u = false ∧ m.isInitial u = false ∧ run.inst.terminated = true ∧ ∃ Y, Books m past Y run

def Landed (m : Model μ δ) (past : List (Event μ δ)) (u : VertexId) (X : Set VertexId) (run : Run μ δ σ) : Prop :=
  Books m past X run ∧ (m.isState u = true → m.isActive run.inst u = true) ∨
    m.isState u = false ∧ run.inst.terminated = true ∧ ∃ Y, Books m past Y run

theorem carries_cascade (hR : Enters m past plainly c n) (hmode : mode.nested = true)
    (hbranch : ∀ v, m.isBranch v = false) {l : List VertexId} {u : VertexId} (hl : m.Descent l u)
    (hu : (m.vertex? u).isSome) {v : VertexId} {rest : List VertexId} (hv : l = v :: rest)
    (hX : ∀ w ∈ m.Around v, w ∉ X) :
    Carries m past plainly c n mode (Open m past v X) (m.cascade plainly l)
      (Reached m past u X : Run μ δ σ → Prop) := by
  induction hl generalizing v rest with
  | last u =>
    cases hv
    cases hs : m.isState u with
    | true =>
      exact (carries_beginEnterState h ht hs (hX u (mem_around_self h u))).post fun run hk => Or.inl ⟨hs, hk⟩
    | false =>
      have hann : Carries m past plainly c n mode (Open m past u X) [.announceEnter (.vertex u)] (Open m past u X) :=
        carries_pseudo hs (Or.inl rfl) (steady_open h u)
      rcases beginEnterVertex_of_not_isState hu hs with ⟨heq, hkind⟩ | ⟨heq, hinitial⟩
      · rw [cascade, heq]
        have hi : m.isInitial u = true := hkind.resolve_right (by simp [hbranch])
        exact hann.post fun run hk => Or.inr (Or.inl ⟨hs, hi, hk⟩)
      · rw [cascade, heq]
        refine hann.append (Does.single stops_outOfFuel fun fuel _ => triple_terminate stops_outOfFuel fun run hk => ?_)
        have hbooks := steady_books h run (run.update (·.setTerminated true)) [] rfl rfl (fun _ _ => rfl) hk.1
        exact Or.inr (Or.inr ⟨hs, hinitial, rfl, _, hbooks⟩)
  | @step v w u r rest hp hr hrest ih =>
    cases hv
    have hv := h.isState_of_owner? hr
    -- All regions of `v` are entered by default but the one that the way down goes through.
    have hall := carries_regions h hR hmode (fun x hx => hX x (beneath_subset_around h v hx))
      fun q => decide (m.parent? w = some q)
    simp only [decide_eq_true_eq] at hall
    refine ((carries_beginEnterState h ht hv (hX v (mem_around_self h v))).append hall).append ((ih hu rfl ?_).pre ?_)
    · intro x hx
      rw [around_eq hp] at hx
      exact hX x (beneath_subset_around h v ⟨r, h.mem_regionsOf.mpr hr, hx⟩)
    · intro run hk
      refine ⟨hk.1.congr h fun s _ _ => or_congr_right ?_, fun r' o hp' ho => ?_⟩
      · rw [around_eq hp]
        constructor
        · rintro ⟨q, _, hq, hs⟩; rw [hp] at hq; cases hq; exact hs
        · exact fun hs => ⟨r, h.mem_regionsOf.mpr hr, hp, hs⟩
      · rw [hp] at hp'; cases hp'
        rw [hr] at ho; cases ho; exact hk.2

/-! ## Regions by default -/

def Heads (m : Model μ δ) (past : List (Event μ δ)) (plainly : RegionId → Bool) (c : Context σ) (k : Nat) : Prop :=
  ∀ (trigger : Trigger μ) t record q o X, m.transition? t = some record → m.parent? record.source = some q →
    m.isInitial record.source = true → m.owner? q = some o → (∀ w, m.Above q w → w ∉ X) →
    Triple (Stands m past o (X ∪ {w | m.Above q w})) (follow m (m.compileWith plainly) c k trigger t)
      (fun _ => (Stands m past o X : Run μ δ σ → Prop)) (Stops m past)

omit ht in
theorem carries_endEnterPseudo_nested (he : m.EntersStates) (hH : ∀ k < n, Heads m past plainly c k)
    (hmode : mode.nested = true) {v o : VertexId} {q : RegionId} (hp : m.parent? v = some q)
    (hi : m.isInitial v = true) (ho : m.owner? q = some o) (hX : ∀ w, m.Above q w → w ∉ X) :
    Carries m past plainly c n mode (Stands m past o (X ∪ {w | m.Above q w})) (m.endEnterPseudo v)
      (Stands m past o X : Run μ δ σ → Prop) := by
  refine does_endEnterPseudo lenient_stops h he hp hi fun t record hrec hsource k hk => ?_
  refine triple_traverse stops_outOfFuel (fun j hj => ?_) (fun _ _ hk => hk) fun hn => by rw [hmode] at hn; cases hn
  exact hH j (by omega) mode.trigger t record q o X hrec (hsource ▸ hp) (hsource ▸ hi) ho hX

omit h ht in
theorem Stands.open_of_parent {run : Run μ δ σ} {v o : VertexId} {q : RegionId} (hp : m.parent? v = some q)
    (ho : m.owner? q = some o) (hk : Stands m past o (X ∪ {w | m.Above q w}) run) : Open m past v X run := by
  refine ⟨by rw [around_eq hp]; exact hk.1, fun r o' hp' ho' => ?_⟩
  rw [hp] at hp'; cases hp'
  rw [ho] at ho'; cases ho'; exact hk.2

omit ht in
theorem Stands.owner {run : Run μ δ σ} {u o : VertexId} {q : RegionId} (ho : m.owner? q = some o)
    (ha : m.Above q u) (hk : Stands m past u X run) : Stands m past o X run :=
  ⟨hk.1, isActive_of_above h ho u (vertex?_isSome_of_above ha) hk.2 ha⟩

theorem enters (he : m.EntersStates) (hH : ∀ k < n, Heads m past plainly c k) :
    Enters (σ := σ) m past plainly c n := by
  induction n using Nat.strongRecOn with
  | ind n ih =>
  intro mode q o X hmode ho hX
  obtain ⟨v, hv⟩ := exists_head h he ho
  have hnested : ∀ deep, ({ mode with deep } : Mode μ).nested = true := fun _ => hmode
  refine does_endEnterRegion lenient_stops hv (fun run s hr => ?_) (fun w k hk _ => ?_) fun k hk deep => ?_
  · refine (steady_stands h o).begin run _ s (fun w heq => ?_) hr
    cases heq; exact isState_eq_false_of_isInitial (isInitial_of_head? hv)
  · -- History brings back a state of the region.
    refine Triple.assume fun run hr => ?_
    obtain ⟨hr, hw⟩ := hr
    obtain ⟨hpw, hsw⟩ := hr.1.1 q w hw
    have haround : ∀ x ∈ m.Around w, x ∉ X := fun x hx => hX x (hx q hpw)
    refine Triple.start (Triple.bind (carries_beginEnterState h ht (hsw rfl) (haround w (mem_around_self h w)) k
      (Nat.le_refl k)) fun _ => ?_) (hr.open_of_parent hpw ho)
    have hstate : Carries m past plainly c k { mode with deep := mode.deep || m.headKind? q == some .deepHistory }
        (Stands m past w (X ∪ m.Beneath w)) (m.endEnterVertex plainly w) (Stands m past w X : Run μ δ σ → Prop) :=
      carries_endEnterState h (ih k hk fun j hj => hH j (by omega)) (hnested _) (hsw rfl)
        fun x hx => haround x (beneath_subset_around h w hx)
    exact (hstate k (Nat.le_refl k)).post fun _ run hk => hk.owner h ho (above_parent h hpw)
  · exact (carries_endEnterPseudo_nested h he (fun j hj => hH j (by omega)) (hnested deep) (parent?_of_head? h hv)
      (isInitial_of_head? hv) ho hX).pre fun run hr => hr.1

/-! ## Transitions -/

theorem carries_arrival (he : m.EntersStates) (hbranch : ∀ v, m.isBranch v = false)
    (hH : ∀ k < n, Heads (σ := σ) m past plainly c k) (hmode : mode.nested = true) (t : TransitionId)
    {v u : VertexId} {rest : List VertexId} (hl : m.Descent (v :: rest) u) (hu : (m.vertex? u).isSome)
    (hX : ∀ w ∈ m.Around v, w ∉ X) :
    Carries m past plainly c n mode (Open m past v X) (m.arrival plainly t (v :: rest) u)
      (Landed m past u X : Run μ δ σ → Prop) := by
  have hR : Enters (σ := σ) m past plainly c n := enters h ht he hH
  have hXu : ∀ w ∈ m.Around u, w ∉ X := fun w hw => hX w fun r hr => hl.around h hw hr
  refine ((carries_effectsOf ht t (steady_open h v)).append
    (carries_cascade h ht hR hmode hbranch hl hu rfl hX)).append ?_
  -- The way down ends at a state, at a vertex that heads its region, or where the instance has terminated.
  cases hs : m.isState u with
  | true =>
    refine (carries_endEnterState h hR hmode hs fun w hw => hXu w (beneath_subset_around h u hw)).conseq
      (fun run hk => ?_) fun run hk => Or.inl ⟨hk.1, fun _ => hk.2⟩
    rcases hk with ⟨_, hk⟩ | ⟨hnot, _⟩ | ⟨hnot, _⟩
    · exact hk
    · rw [hs] at hnot; cases hnot
    · rw [hs] at hnot; cases hnot
  | false =>
    rw [endEnterVertex_of_not_isState hu hs]
    cases hi : m.isInitial u with
    | true =>
      obtain ⟨q, hp⟩ := h.exists_parent? hu hs
      obtain ⟨o, ho⟩ := h.owner?_of_parent? hp
      refine (carries_endEnterPseudo_nested h he hH hmode hp hi ho fun w hw => hXu w ?_).conseq (fun run hk => ?_)
        fun run hk => Or.inl ⟨hk.1, fun hstate => by rw [hs] at hstate; cases hstate⟩
      · rw [around_eq hp]; exact hw
      · rcases hk with ⟨hstate, _⟩ | ⟨_, _, hk⟩ | ⟨_, hnot, _⟩
        · rw [hs] at hstate; cases hstate
        · rw [← around_eq hp]; exact ⟨hk.1, hk.2 q o hp ho⟩
        · rw [hi] at hnot; cases hnot
    | false =>
      unfold endEnterPseudo
      rw [if_neg (by simp [hi])]
      refine Does.nil fun run hk => ?_
      rcases hk with ⟨hstate, _⟩ | ⟨_, hinitial, _⟩ | ⟨_, _, hk⟩
      · rw [hs] at hstate; cases hstate
      · rw [hi] at hinitial; cases hinitial
      · exact Or.inr ⟨hs, hk⟩

theorem heads (he : m.EntersStates) (hbranch : ∀ v, m.isBranch v = false) (n : Nat) :
    Heads (σ := σ) m past plainly c n := by
  induction n using Nat.strongRecOn with
  | ind n ih =>
  intro trigger t record q o X hrec hp hi ho hX
  have hs := isState_eq_false_of_isInitial hi
  obtain ⟨u, hu, hstate, hqu⟩ := exists_target_of_initial h he hrec hp hi
  refine triple_follow_route lenient_stops hbranch hrec (steady_stands h o).blind.fired (steady_stands h o).blind.aloof
    (fun _ _ hk => hk) fun i k hk => ?_
  obtain ⟨w, rest, hpw, hl, hsteps⟩ := @steps_initial _ _ m plainly t record u hrec h q hp hs hu hstate hqu i
  rw [hsteps, leaveVertex_of_not_isState (h.source_isSome hrec) hs]
  have hleave : Carries m past plainly c k { trigger, nested := true }
      (Stands m past o (X ∪ {w | m.Above q w})) [.announceLeave (.vertex record.source)]
      (Stands m past o (X ∪ {w | m.Above q w}) : Run μ δ σ → Prop) :=
    carries_pseudo hs (Or.inr rfl) (steady_stands h o)
  have harrive : Carries m past plainly c k { trigger, nested := true } (Open m past w X)
      (m.arrival plainly t (w :: rest) u) (Landed m past u X) :=
    carries_arrival h ht he hbranch (fun j hj => ih j (by omega)) rfl t hl (vertex?_isSome_of_isState hstate)
      fun x hx => hX x (hx q hpw)
  refine ((hleave.append (harrive.pre fun run hk => hk.open_of_parent hpw ho)).conseq (fun run hk => hk.1)
    (fun run hk => ?_)) k (Nat.le_refl k)
  rcases hk with ⟨hbooks, hactive⟩ | ⟨hfalse, _⟩
  · exact Stands.owner h ho hqu ⟨hbooks, hactive hstate⟩
  · rw [hstate] at hfalse; cases hfalse

omit h ht in
theorem Open.congr_parent {run : Run μ δ σ} {d e : VertexId} (heq : m.parent? d = m.parent? e)
    (hk : Open m past d X run) : Open m past e X run := by
  unfold Open Around at hk ⊢
  rw [← heq]; exact hk

omit h ht in
theorem Landed.resting {run : Run μ δ σ} {u : VertexId} (hk : Landed m past u ∅ run) : Resting m past run := by
  rcases hk with ⟨hbooks, _⟩ | ⟨_, hterminated, Y, hbooks⟩
  · exact hbooks.resting (Or.inr rfl)
  · exact hbooks.resting (Or.inl hterminated)

theorem carries_route (he : m.EntersStates) (hbranch : ∀ v, m.isBranch v = false) {t : TransitionId}
    {record : Transition μ δ} (hrec : m.transition? t = some record) (hs : m.isState record.source = true)
    (hmode : mode.nested = true) (i : Instance δ) (ha : m.isActive i record.source = true) :
    Carries m past plainly c n mode (fun run => Stands m past record.source ∅ run ∧ run.inst = i)
      ((m.route plainly t).steps i) (Resting m past : Run μ δ σ → Prop) := by
  have hknown := h.source_isSome hrec
  have harrive : ∀ {v u rest}, m.Descent (v :: rest) u → (m.vertex? u).isSome →
      Carries m past plainly c n mode (Open m past v ∅) (m.arrival plainly t (v :: rest) u)
        (Resting m past : Run μ δ σ → Prop) := fun hl hu =>
    (carries_arrival h ht he hbranch (fun k _ => heads h ht he hbranch k) hmode t hl hu (by simp)).post
      fun _ => Landed.resting
  cases hu : record.target with
  | none =>
    rw [steps_internal hrec hu]
    refine (carries_effectsOf ht t (steady_stands h record.source)).conseq (fun run hk => hk.1) fun run hk => ?_
    exact hk.1.resting (Or.inr rfl)
  | some u =>
    have huknown := h.target_isSome hrec hu
    -- A local transition leaves a region of an active state, and any other one a vertex. Either way what has been left
    -- is just what is around the vertex that it goes on from.
    by_cases hlocal : m.IsLocal record u
    · obtain ⟨l, v, rest, r, hbelow, hp, hsteps, hrecorded⟩ := @steps_local _ _ m plainly t record u hrec h hu hlocal i
      rw [hsteps]
      obtain ⟨o, ho, hactive, hrest⟩ := exists_landing h hlocal huknown ha hbelow hp hrecorded
      refine ((carries_leaveRegion h (fun k _ => carries_leaveVertex h ht k) ho
        fun w _ => Set.notMem_empty w).conseq ?_ ?_).append (harrive hrest huknown)
      · rintro run ⟨hk, rfl⟩; exact ⟨hk.1, hactive⟩
      · exact fun run hk => hk.open_of_parent hp ho
    · obtain ⟨d, e, rest, hd, hdrop, hparent, hsteps⟩ := @steps_direct _ _ m plainly t record u hrec hu hlocal i
      rw [hsteps]
      have hmem : d ∈ m.chain record.source := List.mem_of_getElem? hd
      have hstate : m.isState d = true := by
        by_cases heq : d = record.source
        · rw [heq]; exact hs
        · exact isState_of_mem_chain h record.source hknown hmem heq
      have hactive := isActive_of_mem_chain h hknown ha hmem
      have hdescent : m.Descent (e :: rest) u := descent_of_drop h huknown hdrop
      refine ((carries_leaveVertex h ht n mode d ∅ hstate (by simp)).conseq ?_ ?_).append (harrive hdescent huknown)
      · rintro run ⟨hk, rfl⟩; exact ⟨hk.1, hactive⟩
      · exact fun run hk => (hk.open h).congr_parent hparent

theorem triple_fire (he : m.EntersStates) (hbranch : ∀ v, m.isBranch v = false) {t : TransitionId}
    {record : Transition μ δ} (hrec : m.transition? t = some record) (hs : m.isState record.source = true) (n : Nat)
    (trigger : Trigger μ) : Triple (Stands m past record.source ∅) (follow m (m.compileWith plainly) c n trigger t)
      (fun _ => (Resting m past : Run μ δ σ → Prop)) (Stops m past) := by
  refine triple_follow_route lenient_stops hbranch hrec (steady_stands h record.source).blind.fired
    (blind_resting h).aloof (fun _ _ hk => hk) fun i k hk => Triple.assume fun run ⟨hr, hi⟩ => ?_
  exact (carries_route h ht he hbranch hrec hs rfl i (hi ▸ hr.2) k (Nat.le_refl k)).start ⟨hr, hi⟩

end

end Eval

end Statechart
