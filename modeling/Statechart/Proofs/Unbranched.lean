import Statechart.Proofs.Execution

/-!
# Without branches

Where there are no branches, to follow a transition is to perform its steps. What holds whenever a run is over for now
is then a matter of single transitions: offers and completions do no more than choose which of them are followed.
-/

namespace Statechart

open Model Eval

variable {μ δ σ : Type}

namespace Eval

variable {m : Model μ δ} {P R T : Run μ δ σ → Prop} {E : Halt → Run μ δ σ → Prop} {n : Nat}
variable {plainly : RegionId → Bool} {c : Context σ} {mode : Mode μ}

/-- The condition asks nothing of a run that stops short, but where the sink has not let an error pass. -/
def Lenient (E : Halt → Run μ δ σ → Prop) : Prop := ∀ halt run, (∀ error, halt ≠ .refused error) → E halt run

def Refuses (P : Run μ δ σ → Prop) (halt : Halt) (run : Run μ δ σ) : Prop := ∀ error, halt = .refused error → P run

theorem lenient_refuses : Lenient (Refuses P) := fun _ _ hne error heq => absurd heq (hne error)

theorem Lenient.outOfFuel (hE : Lenient E) (run : Run μ δ σ) (_ : P run) : E .outOfFuel run := hE _ run nofun

theorem Lenient.foreign (hE : Lenient E) (v : VertexId) (run : Run μ δ σ) : E (.foreign v) run := hE _ run nofun

/-! ## Transitions and regions -/

section
variable (hE : Lenient E) (h : m.Arena)
include hE

theorem triple_follow_route (hbranch : ∀ v, m.isBranch v = false) {t : TransitionId} {record : Transition μ δ}
    (hrec : m.transition? t = some record) {trigger : Trigger μ}
    (hnote : ∀ run, P run → T (run.note (.fired t trigger run.inst))) (hR : Aloof R)
    (harrive : ∀ run l, R run → R { run with arrived := l })
    (hsteps : ∀ i, ∀ k < n, Triple (fun run => T run ∧ run.inst = i)
      (perform m (m.compileWith plainly) c k { trigger, nested := true } ((m.route plainly t).steps i))
      (fun _ => R) E) :
    Triple P (follow m (m.compileWith plainly) c n trigger t) (fun _ => R) E := by
  have hnot : ∀ {p : Prop} u, record.target = some u → m.isBranch u = true → p := by
    intro p u _ hb; rw [hbranch] at hb; cases hb
  exact triple_follow hE.outOfFuel hrec (route?_compileWith (by simp [hrec])) hnote hR hsteps (fun _ _ hk => hk)
    (fun run u _ _ _ => hE.foreign u run) (fun _ _ _ run hk => harrive run _ hk) (fun _ _ _ _ _ hk => hk)
    (fun u hu hb => hnot u hu hb) (fun u hu hb => hnot u hu hb) fun u hu hb => hnot u hu hb

include h in
theorem does_endEnterPseudo (he : m.EntersStates) {v : VertexId} {q : RegionId} (hp : m.parent? v = some q)
    (hi : m.isInitial v = true) (hT : ∀ t record, m.transition? t = some record → record.source = v → ∀ k < n,
      Triple P (traverse m (m.compileWith plainly) c k mode t) (fun _ => R) E) :
    Does m (m.compileWith plainly) c E n mode P (m.endEnterPseudo v) R := by
  obtain ⟨v', t, _, _, _, _, hone, hout, _⟩ := he.exists_target h (region?_isSome_of_parent? h hp)
  obtain rfl := hone v hp hi
  obtain ⟨record, hrec, hsource⟩ := h.source_of_mem_outgoing (t := t) (v := v) (by simp [hout])
  unfold endEnterPseudo
  rw [if_pos hi, hout]
  exact Does.single hE.outOfFuel fun fuel hf =>
    triple_traverseStep hE.outOfFuel fun k hk => hT t record hrec hsource k (by omega)

theorem does_endEnterRegion {q : RegionId} {v : VertexId} (hv : m.head? q = some v)
    (hbegin : ∀ run s, P run → P { run.note (.entered (.vertex v)) with outside := s })
    (hrecord : ∀ w, ∀ k < n, (mode.deep || (m.headKind? q).any (·.isHistory)) = true →
      Triple (fun run => P run ∧ run.inst.current? q = some w)
        (do perform m (m.compileWith plainly) c k { mode with deep := mode.deep || m.headKind? q == some .deepHistory }
              (m.beginEnterVertex w)
            perform m (m.compileWith plainly) c k { mode with deep := mode.deep || m.headKind? q == some .deepHistory }
              (m.endEnterVertex plainly w)) (fun _ => R) E)
    (hend : ∀ k ≤ n, ∀ deep, Does m (m.compileWith plainly) c E k { mode with deep }
      (fun run => P run ∧ (plainly q = false → (mode.deep || (m.headKind? q).any (·.isHistory)) = true →
        run.inst.current? q = none)) (m.endEnterPseudo v) R) :
    Does m (m.compileWith plainly) c E n mode P (m.endEnterRegion plainly q) R := by
  have hi := isInitial_of_head? hv
  have hs := isState_eq_false_of_isInitial hi
  have hknown := vertex?_isSome_of_isInitial hi
  have hannounce : ∀ k deep, Does m (m.compileWith plainly) c E k { mode with deep }
      (fun run => P run ∧ (plainly q = false → (mode.deep || (m.headKind? q).any (·.isHistory)) = true →
        run.inst.current? q = none)) (m.beginEnterVertex v)
      (fun run => P run ∧ (plainly q = false → (mode.deep || (m.headKind? q).any (·.isHistory)) = true →
        run.inst.current? q = none)) := fun k deep => by
    rw [beginEnterVertex_of_isInitial hi]
    exact Does.single hE.outOfFuel fun fuel _ =>
      triple_announceEnter hE.outOfFuel fun run s hr => ⟨hbegin run s hr.1, hr.2⟩
  -- Where the region is not entered plainly, its head is entered only if there is no record to be brought back.
  rcases endEnterRegion_cases m plainly q with heq | ⟨w, hw, hplain, heq⟩ <;> rw [heq]
  · refine Does.single hE.outOfFuel fun fuel hf => triple_enterRegion hE.outOfFuel
      (fun run w _ _ _ => hE.foreign w run) (fun hnone => by rw [hv] at hnone; cases hnone) ?_ ?_
    · exact fun w hmode k hk => hrecord w k (by omega) hmode
    · intro w hw k hk
      rw [hv] at hw; cases hw
      have hshape : m.endEnterVertex plainly v = m.endEnterPseudo v := endEnterVertex_of_not_isState hknown hs
      refine Triple.bind ((hannounce k _ k (Nat.le_refl k)).pre fun run hr => ⟨hr.1, fun _ => hr.2⟩) fun _ => ?_
      rw [hshape]
      exact hend k (by omega) _ k (Nat.le_refl k)
  · rw [hv] at hw; cases hw
    refine ((hannounce n mode.deep).append (hend n (Nat.le_refl n) mode.deep)).pre fun run hr => ⟨hr, fun hn => ?_⟩
    rw [hplain] at hn; cases hn

end

theorem exists_head (h : m.Arena) (he : m.EntersStates) {q : RegionId} {o : VertexId} (ho : m.owner? q = some o) :
    ∃ v, m.head? q = some v := by
  obtain ⟨v, _, _, _, hp, hi, _⟩ := he.exists_target h (region?_isSome_of_mem h (h.mem_regionsOf.mpr ho))
  cases hv : m.head? q with
  | some v => exact ⟨v, rfl⟩
  | none => exact absurd (List.find?_eq_none.mp hv v (h.mem_verticesOf.mpr hp)) (by simp [hi])

theorem exists_target_of_initial (h : m.Arena) (he : m.EntersStates) {t : TransitionId} {record : Transition μ δ}
    {q : RegionId} (hrec : m.transition? t = some record) (hp : m.parent? record.source = some q)
    (hi : m.isInitial record.source = true) : ∃ u, record.target = some u ∧ m.isState u = true ∧ m.Above q u := by
  obtain ⟨v, t', record', u, _, _, hone, hout, hrec', hu, hstate, hqu⟩ :=
    he.exists_target h (region?_isSome_of_parent? h hp)
  have hmem := h.mem_outgoing_source hrec
  rw [hone _ hp hi, hout, List.mem_singleton] at hmem
  subst hmem
  rw [hrec] at hrec'; cases hrec'
  exact ⟨u, hu, hstate, hqu⟩

/-! ## Lulls -/

/-- `J` holds whenever the run is over for now, and `K` from an offer on until a transition is followed. -/
structure Lull (m : Model μ δ) (plainly : RegionId → Bool) (c : Context σ) (J K : Run μ δ σ → Prop) : Prop where
  fits : ∀ run, J run → m.Fits true run.inst
  arrived : ∀ run l, J run → J { run with arrived := l }
  aloof : Aloof J
  aloof_asked : Aloof K
  offered : ∀ run v trigger, J run → J (run.note (.offered v trigger)) ∧ K (run.note (.offered v trigger))
  fire : ∀ {t record}, m.transition? t = some record → m.isState record.source = true → ∀ k trigger,
    Triple (fun run => (J run ∧ m.isActive run.inst record.source = true ∧ run.inst.terminated = false) ∧ K run)
      (follow m (m.compileWith plainly) c k trigger t) (fun _ => J) (Refuses J)

namespace Lull

variable {J K : Run μ δ σ → Prop} {p : Program μ δ}

def Awake (m : Model μ δ) (J : Run μ δ σ → Prop) (v : VertexId) (run : Run μ δ σ) : Prop :=
  J run ∧ m.isActive run.inst v = true ∧ run.inst.terminated = false

def Completes (m : Model μ δ) (p : Program μ δ) (c : Context σ) (J : Run μ δ σ → Prop) (k : Nat) : Prop :=
  ∀ v, Triple J (complete m p c k v) (fun _ => J) (Refuses J)

def Offers (m : Model μ δ) (p : Program μ δ) (c : Context σ) (J : Run μ δ σ → Prop) (k : Nat) : Prop :=
  ∀ trigger v, Triple (fun run => J run ∧ (run.inst.terminated = false → m.isActive run.inst v = true))
    (offer m p c k trigger v) (fun _ => J) (Refuses J)

def OffersBeneath (m : Model μ δ) (p : Program μ δ) (c : Context σ) (J : Run μ δ σ → Prop) (k : Nat) : Prop :=
  ∀ trigger v rs, (∀ r ∈ rs, m.owner? r = some v) →
    Triple (Awake m J v) (offerBeneath m p c k trigger v rs) (fun _ => J) (Refuses J)

section
variable (hJ : Lull m plainly c J K)
include hJ

theorem patient_awake (v : VertexId) : Patient c (Awake m J v) where
  offered run w trigger hr := ⟨(hJ.offered run w trigger hr.1).1, hr.2⟩
  reported run _ hr := ⟨hJ.aloof run _ _ trivial hr.1, hr.2⟩

theorem patient_asked (v : VertexId) : Patient c fun run => Awake m J v run ∧ K run where
  offered run w trigger hr := ⟨(hJ.patient_awake v).offered run w trigger hr.1, (hJ.offered run w trigger hr.1.1).2⟩
  reported run error hr := ⟨(hJ.patient_awake v).reported run error hr.1, hJ.aloof_asked run _ _ trivial hr.2⟩

theorem traverse (hmode : mode.nested = false) (hC : ∀ k < n, Completes m (m.compileWith plainly) c J k)
    {t : TransitionId} (hfollow : ∀ k < n, Triple P (follow m (m.compileWith plainly) c k mode.trigger t)
      (fun _ => J) (Refuses J)) :
    Triple P (Eval.traverse m (m.compileWith plainly) c n mode t) (fun _ => J) (Refuses J) := by
  refine triple_traverse lenient_refuses.outOfFuel hfollow (fun hn => by rw [hmode] at hn; cases hn) fun _ l k hk => ?_
  refine (triple_completeAll (I := fun _ => J) (fun run _ => lenient_refuses _ run nofun)
    fun v _ j hj => hC j (by omega) v).pre fun run hr => ?_
  have := hJ.arrived _ [] hr.2
  rwa [← hr.1] at this

omit hJ in
theorem completes (hO : ∀ k < n, Offers m p c J k) : Completes m p c J n := by
  intro v
  refine triple_complete lenient_refuses.outOfFuel (fun run _ _ => lenient_refuses.foreign _ run)
    (fun run _ _ => lenient_refuses.foreign _ run) (fun _ hk _ => hk) fun k hk => ?_
  refine (hO k hk (.completion v) v).pre fun run hr => ⟨hr.1, fun _ => ?_⟩
  simp [Model.isActive, hr.2.2.1]

theorem offers (h : m.Arena) (hC : ∀ k < n, Completes m (m.compileWith plainly) c J k)
    (hB : ∀ k < n, OffersBeneath m (m.compileWith plainly) c J k) : Offers m (m.compileWith plainly) c J n := by
  intro trigger v
  refine triple_offer (Y := J) (N := fun run => Awake m J v run ∧ K run) lenient_refuses.outOfFuel
    (T := fun run => (J run ∧ K run) ∧ (run.inst.terminated = false → m.isActive run.inst v = true))
    (fun run hr => ⟨hJ.offered run v trigger hr.1, hr.2⟩) (fun run _ _ => lenient_refuses.foreign v run)
    (fun _ hr _ => hr.1) (fun _ _ run hr hn => ⟨⟨hr.1.1, hr.2 hn, hn⟩, hr.1.2⟩) (fun _ _ k hk => ?_)
    (fun _ k hk => hC k hk v) (fun _ hr _ => hr.1.1) (fun hs t k hk => Triple.assume fun run ⟨hr, hmem⟩ => ?_)
    fun _ count _ => ?_
  · refine Triple.assume fun run hr => ?_
    have hawake : Awake m J v run ∧ K run := ⟨⟨hr.1.1.1, hr.1.2 hr.2, hr.2⟩, hr.1.1.2⟩
    have hbeneath := (hB k hk trigger v (m.regionsOf v) fun r hr => h.mem_regionsOf.mp hr).withNo
      ((triple_of_not_consumed (hJ.patient_asked v) k).2 trigger v (m.regionsOf v))
    exact hbeneath.start ⟨hawake.1, hawake⟩
  · obtain ⟨record, hrec, rfl, _⟩ := source_of_enabled h (hmem ▸ List.mem_singleton_self t)
    refine (hJ.traverse (P := fun run => Awake m J record.source run ∧ K run) rfl (fun j hj => hC j (by omega))
      fun j hj => ?_).start hr
    exact hJ.fire hrec hs j trigger
  · exact (triple_report hJ.aloof fun _ hr _ _ => hr).conseq (fun _ hr => hr.1.1.1) (fun _ _ hr => hr.1)
      fun _ _ hr => hr

theorem offersBeneath (h : m.Arena) (hO : ∀ k < n, Offers m (m.compileWith plainly) c J k)
    (hB : ∀ k < n, OffersBeneath m (m.compileWith plainly) c J k) :
    OffersBeneath m (m.compileWith plainly) c J n := by
  intro trigger v rs hrs
  cases rs with
  | nil => cases n <;> exact Triple.pure fun _ hk => hk.1
  | cons r rest =>
    have hrest : ∀ r' ∈ rest, m.owner? r' = some v := fun r' hr' => hrs r' (List.mem_cons_of_mem _ hr')
    refine triple_offerBeneath (Y := J) (N := Awake m J v) lenient_refuses.outOfFuel
      (fun k hk => (hB k hk trigger v rest hrest).pre fun _ hr => hr.1) (fun current k hk => ?_)
      (fun k hk => hB k hk trigger v rest hrest) (fun run _ _ => lenient_refuses.foreign v run) (fun _ hk => hk)
      fun k hk => (hB k hk trigger v rest hrest).pre fun run hr => ⟨hr.1, by simp [Model.isActive, hr.2.1], hr.2.2⟩
    -- What is recorded beneath an active state is active.
    refine Triple.assume fun run hrun => ?_
    obtain ⟨hr, hcurrent⟩ := hrun
    have hactive : m.isActive run.inst current = true :=
      (isActive_step h (hJ.fits run hr.1 r current hcurrent).1 (hrs r (by simp))).mpr ⟨hcurrent, hr.2.1⟩
    have hoffer := (hO k hk trigger current).withNo
      ((triple_of_not_consumed (hJ.patient_awake v) k).1 trigger current)
    exact hoffer.start ⟨⟨hr.1, fun _ => hactive⟩, hr⟩

theorem parts (h : m.Arena) (k : Nat) : Completes m (m.compileWith plainly) c J k ∧
    Offers m (m.compileWith plainly) c J k ∧ OffersBeneath m (m.compileWith plainly) c J k := by
  induction k using Nat.strongRecOn with
  | ind k ih =>
  exact ⟨completes fun j hj => (ih j hj).2.1, hJ.offers h (fun j hj => (ih j hj).1) fun j hj => (ih j hj).2.2,
    hJ.offersBeneath h (fun j hj => (ih j hj).2.1) fun j hj => (ih j hj).2.2⟩

theorem firstRegion (h : m.Arena) (he : m.EntersStates) (hmode : mode.nested = false) {q : RegionId} {o : VertexId}
    (hq : m.owner? q = some o) (hnone : ∀ run, P run → run.inst.current? q = none)
    (hbegin : ∀ run element s, (∀ v, element = .vertex v → m.isState v = false) → P run →
      P { run.note (.entered element) with outside := s })
    (hhead : ∀ t record, m.transition? t = some record → m.parent? record.source = some q →
      m.isInitial record.source = true → ∀ k trigger,
      Triple P (follow m (m.compileWith plainly) c k trigger t) (fun _ => J) (Refuses J)) (n : Nat) :
    Does m (m.compileWith plainly) c (Refuses J) n mode P (beginEnterRegion q ++ m.endEnterRegion plainly q) J := by
  obtain ⟨v, hv⟩ := exists_head h he hq
  have hi := isInitial_of_head? hv
  have hp := parent?_of_head? h hv
  have hannounce : Does m (m.compileWith plainly) c (Refuses J) n mode P (beginEnterRegion q) P :=
    Does.single lenient_refuses.outOfFuel fun fuel _ =>
      triple_announceEnter lenient_refuses.outOfFuel fun run s hr => hbegin run _ s nofun hr
  refine hannounce.append (does_endEnterRegion lenient_refuses hv (fun run s hr => ?_) (fun w k _ _ => ?_)
    fun k _ deep => ?_)
  · refine hbegin run _ s (fun w heq => ?_) hr
    cases heq; exact isState_eq_false_of_isInitial hi
  · refine Triple.assume fun run hr => ?_
    rw [hnone run hr.1] at hr
    cases hr.2
  · refine does_endEnterPseudo lenient_refuses h he hp hi fun t record hrec hsource j _ => ?_
    have hnested : ({ mode with deep } : Mode μ).nested = false := hmode
    refine hJ.traverse hnested (fun j' _ => (hJ.parts h j').1) fun j' _ => ?_
    exact (hhead t record hrec (hsource ▸ hp) (hsource ▸ hi) j' mode.trigger).pre fun run hr => hr.1

theorem initialises (h : m.Arena) (he : m.EntersStates) (hroot : (m.regionsOf root).length ≤ 1)
    (hmode : mode.nested = false)
    (hbeginRoot : Does m (m.compileWith plainly) c (Refuses J) n mode P (m.beginEnterVertex root) R)
    (hleaf : m.regionsOf root = [] → ∀ run, R run → J run)
    (hnone : ∀ run, R run → ∀ q, run.inst.current? q = none)
    (hbegin : ∀ run element s, (∀ v, element = .vertex v → m.isState v = false) → R run →
      R { run.note (.entered element) with outside := s })
    (hhead : ∀ q t record, m.regionsOf root = [q] → m.transition? t = some record →
      m.parent? record.source = some q → m.isInitial record.source = true → ∀ k trigger,
      Triple R (follow m (m.compileWith plainly) c k trigger t) (fun _ => J) (Refuses J)) :
    Does m (m.compileWith plainly) c (Refuses J) n mode P (m.beginEnterVertex root ++ m.endEnterVertex plainly root)
      J := by
  refine hbeginRoot.append ?_
  rw [endEnterVertex_of_isState h.isState_root]
  rcases hregions : m.regionsOf root with _ | ⟨q, _ | ⟨q', rest⟩⟩
  · exact Does.nil (hleaf hregions)
  · rw [List.flatMap_singleton]
    have hq : m.owner? q = some root := h.mem_regionsOf.mp (by simp [hregions])
    exact hJ.firstRegion h he hmode hq (fun run hr => hnone run hr q) hbegin
      (fun t record hrec hp hi => hhead q t record hregions hrec hp hi) n
  · rw [hregions] at hroot; simp at hroot

end

end Lull

end Eval

end Statechart
