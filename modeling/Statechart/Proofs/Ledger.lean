import Mathlib.Data.Set.Basic
import Statechart.Proofs.Session

/-!
# Ledgers

What holds of a configuration between calls does not hold in the middle of one: regions are still to be entered, and
states that have been reached still to be tried for completion. A ledger says what holds apart from the regions that are
pending and the states that are waited for. From what it asks of single steps follows what traversals and offers do.
-/

namespace Statechart

variable {μ δ σ : Type}

namespace Model

variable (m : Model μ δ)

def HasCompletion (v : VertexId) : Prop :=
  ∃ t ∈ m.outgoing v, ∃ record ∈ m.transition? t, record.guard = .completion

instance decidableEqCompletion : (g : Guard μ δ) → Decidable (g = .completion)
  | .completion => isTrue rfl
  | .always => isFalse nofun
  | .otherwise => isFalse nofun
  | .when _ => isFalse nofun

instance decidableHasCompletion (v : VertexId) : Decidable (m.HasCompletion v) :=
  inferInstanceAs (Decidable (∃ t ∈ m.outgoing v, ∃ record ∈ m.transition? t, record.guard = .completion))

/-- `v` is active and complete, and some transition leaves it on completion. -/
def Due (i : Instance δ) (v : VertexId) : Prop :=
  m.isActive i v = true ∧ m.isComplete? i v = some true ∧ m.HasCompletion v

instance decidableDue (i : Instance δ) (v : VertexId) : Decidable (m.Due i v) := inferInstanceAs (Decidable (_ ∧ _))

/-- The region has an initial vertex, and none of its pseudo states is the end of a way. -/
def LeadsOn (r : RegionId) : Prop :=
  (∃ v ∈ m.verticesOf r, m.isInitial v = true) ∧
    ∀ v ∈ m.verticesOf r, (m.isInitial v = true → m.outgoing v ≠ []) ∧
      (m.isInitial v = true ∨ m.isBranch v = true → ∀ t ∈ m.outgoing v, m.HasTarget t = true)

instance decidableLeadsOn (r : RegionId) : Decidable (m.LeadsOn r) :=
  inferInstanceAs (Decidable ((∃ v ∈ m.verticesOf r, _) ∧ ∀ v ∈ m.verticesOf r, (_ → m.outgoing v ≠ []) ∧ (_ → _)))

def Recalls (r : RegionId) : Prop := m.isUnderDeepHistory r = true ∨ (m.headKind? r).any (·.isHistory) = true

instance decidableRecalls (r : RegionId) : Decidable (m.Recalls r) := inferInstanceAs (Decidable (_ ∨ _))

/-- `t` may be followed although nothing beneath `r` has consumed a message. -/
inductive Unprompted (r : RegionId) : TransitionId → Prop
  | outside {t record} : m.transition? t = some record → ¬ m.Above r record.source → Unprompted r t
  | initial {t record} : m.transition? t = some record → m.isInitial record.source = true → Unprompted r t
  | completion {t record} : m.transition? t = some record → m.isState record.source = true →
      record.guard = .completion → Unprompted r t
  | branch {t t' record v} : Unprompted r t → m.transition? t = some record → record.target = some v →
      m.isBranch v = true → t' ∈ m.outgoing v → Unprompted r t'

/-- Entered by default the region records something new, and it does not come to its end before something beneath it
has consumed a message. -/
structure Lasts (r : RegionId) : Prop where
  leadsOn : m.LeadsOn r
  forgets : ¬ m.Recalls r
  prompted : ∀ t record u v, m.Unprompted r t → m.transition? t = some record → record.target = some u →
    v ∈ m.chain u → m.parent? v = some r → m.isFinal v = false

variable {m} in
theorem Lasts.of_closed {r : RegionId} (l : List TransitionId) (hleads : m.LeadsOn r) (hforgets : ¬ m.Recalls r)
    (hclosed : ∀ t ∈ m.transitionIds, ∀ record ∈ m.transition? t,
      (¬ m.Above r record.source ∨ m.isInitial record.source = true ∨
        m.isState record.source = true ∧ record.guard = .completion → t ∈ l) ∧
      (t ∈ l → ∀ u ∈ record.target, m.isBranch u = true → ∀ t' ∈ m.outgoing u, t' ∈ l))
    (hl : ∀ t ∈ l, ∀ record ∈ m.transition? t, ∀ u ∈ record.target, ∀ v ∈ m.chain u, m.parent? v = some r →
      m.isFinal v = false) : m.Lasts r := by
  refine ⟨hleads, hforgets, fun t record u v ht hrec hu hv hp => hl t ?_ record hrec u hu v hv hp⟩
  clear hrec hu hv hp
  induction ht with
  | outside hrec ha => exact (hclosed _ (mem_transitionIds hrec) _ hrec).1 (Or.inl ha)
  | initial hrec hi => exact (hclosed _ (mem_transitionIds hrec) _ hrec).1 (Or.inr (Or.inl hi))
  | completion hrec hs hg => exact (hclosed _ (mem_transitionIds hrec) _ hrec).1 (Or.inr (Or.inr ⟨hs, hg⟩))
  | branch _ hrec hu hb hout ih => exact (hclosed _ (mem_transitionIds hrec) _ hrec).2 ih _ hu hb _ hout

def Watched (S : VertexId → Prop) (B : List VertexId) (v : VertexId) : Prop :=
  ∀ q s, m.owner? q = some s → m.Above q v → S s → s ∈ B

def Guarded (S : VertexId → Prop) (B : List VertexId) (r : RegionId) : Prop :=
  ∀ q s, m.owner? q = some s → m.Encloses q r → S s → s ∈ B

variable {m} {S : VertexId → Prop} {B : List VertexId}

theorem Watched.mono {B' : List VertexId} {v : VertexId} (hB : ∀ w ∈ B, w ∈ B') (hv : m.Watched S B v) :
    m.Watched S B' v := fun q s hq ha hs => hB s (hv q s hq ha hs)

theorem Watched.guarded {v : VertexId} {r : RegionId} (hr : m.owner? r = some v) (hv : m.Watched S B v)
    (hc : S v → v ∈ B) : m.Guarded S B r := by
  intro q s hq he hs
  rcases he with rfl | ⟨o, ho, ha⟩
  · rw [hr] at hq; cases hq; exact hc hs
  · rw [hr] at ho; cases ho; exact hv q s hq ha hs

theorem Guarded.watched (h : m.Arena) {v : VertexId} {r : RegionId} (hv : m.parent? v = some r)
    (hr : m.Guarded S B r) : m.Watched S B v := fun q s hq ha hs => hr q s hq ((above_iff h hv q).mp ha) hs

theorem watched_root (h : m.Arena) : m.Watched S B root := fun q _ _ ha _ => absurd ha (not_above_root h q)

end Model

/-! ## Ledgers -/

/-- `Holds W Q i` says of an instance what holds but for the states in `W`, which are waited for, and for what the
regions in `Q` enclose, which are pending. -/
structure Ledger (m : Model μ δ) where
  /-- States that are waited for whenever they, or something beneath them, may be entered. -/
  covered : VertexId → Prop
  /-- States that are waited for when one of their regions may come to its end. -/
  lasting : VertexId → Prop
  Holds : Set VertexId → Set RegionId → Instance δ → Prop
  mono : ∀ {W W' Q Q' i}, W ⊆ W' → Q ⊆ Q' → Holds W Q i → Holds W' Q' i
  congr : ∀ {W Q} {i i' : Instance δ}, i'.records = i.records → Holds W Q i → Holds W Q i'
  /-- A new record settles its region, apart from the regions of the vertex recorded. -/
  record : ∀ {W Q} {i : Instance δ} {r v o}, m.parent? v = some r → m.isState v = true → m.owner? r = some o →
    (covered o → o ∈ W) → (lasting o → m.isFinal v = true → o ∈ W) → (covered v → v ∈ W) →
    Holds (W ∪ {w | m.Above r w}) (Q ∪ {q | m.Encloses r q}) i →
    Holds W (Q ∪ {q | q ∈ m.regionsOf v}) (i.setCurrent r v)
  /-- When all regions of the root are pending nothing needs to hold. -/
  restart : ∀ {W Q i}, (∀ q ∈ m.regionsOf root, q ∈ Q) → Holds W Q i
  /-- Of what is beneath a region that does not lead on, nothing needs to hold. -/
  release : ∀ {W Q i r}, ¬ m.LeadsOn r → Holds (W ∪ {w | m.Above r w}) (Q ∪ {q | m.Encloses r q}) i → Holds W Q i
  /-- What is not due is not waited for. -/
  settle : ∀ {W Q i v}, (covered v ∨ lasting v → ¬ m.Due i v) → Holds (insert v W) Q i → Holds W Q i
  not_root : ¬ covered root
  /-- No transition leads into a covered state past its boundary. -/
  enclosed : ∀ {t record u q s}, m.transition? t = some record → record.target = some u → m.owner? q = some s →
    covered s → m.Above q u → m.Above q record.source
  /-- History does not bring back a covered state. -/
  forgets : ∀ {s r}, covered s → m.parent? s = some r → ¬ m.Recalls r
  lasts : ∀ {s q}, lasting s → m.owner? q = some s → m.Lasts q
  /-- What is not guarded by completion does not answer to one. -/
  alone : ∀ {s t record}, lasting s → m.transition? t = some record → m.isState record.source = true →
    record.guard ≠ .completion → ∀ v i, record.guard.check record.source (.completion v) i = false
  external : ∀ {t record}, m.transition? t = some record → covered record.source ∨ lasting record.source →
    record.guard = .completion → record.kind = .external

namespace Ledger

open Model Eval

variable {m : Model μ δ} (L : Ledger m)

/-- The lasting states that a transition may bring to their end are listed. -/
def Heeded (B : List VertexId) (t : TransitionId) : Prop :=
  ∀ q s, m.owner? q = some s → L.lasting s → s ∈ B ∨ m.Unprompted q t

def Noted (B : List VertexId) (v : VertexId) : Prop :=
  ∀ r o, m.parent? v = some r → m.owner? r = some o → L.lasting o → m.isFinal v = true → o ∈ B

def Ordered : List VertexId → Prop
  | [] => True
  | v :: rest => m.Watched L.covered rest v ∧ Ordered rest

variable {L} {B : List VertexId} {Q : Set RegionId} {H H' : Set VertexId → Instance δ → Prop} {nested : Bool}

theorem Noted.mono {B' : List VertexId} {v : VertexId} (hB : ∀ w ∈ B, w ∈ B') (hv : L.Noted B v) : L.Noted B' v :=
  fun r o hp ho hl hf => hB o (hv r o hp ho hl hf)

theorem Heeded.noted {t : TransitionId} {record : Transition μ δ} {u v : VertexId} (ht : L.Heeded B t)
    (hrec : m.transition? t = some record) (hu : record.target = some u) (hv : v ∈ m.chain u) : L.Noted B v := by
  intro r o hp ho hl hf
  refine (ht r o ho hl).resolve_right fun hunprompted => ?_
  have := (L.lasts hl ho).prompted t record u v hunprompted hrec hu hv hp
  rw [hf] at this; cases this

theorem Ordered.insert {A : List VertexId} {v : VertexId} (hA : L.Ordered (A ++ B)) (hv : m.Watched L.covered B v) :
    L.Ordered (A ++ v :: B) := by
  induction A with
  | nil => exact ⟨hv, hA⟩
  | cons a A ih =>
    refine ⟨hA.1.mono fun w hw => ?_, ih hA.2⟩
    exact List.mem_append.mpr ((List.mem_append.mp hw).imp id (List.mem_cons_of_mem v))

/-! ## Runs that keep a ledger -/

variable (L)

/-- The records fit, and unless the instance has terminated, `H` holds apart from the arrivals and the states listed.
Nothing has arrived outside of traversals. -/
def Kept (nested : Bool) (B : List VertexId) (H : Set VertexId → Instance δ → Prop) (run : Run μ δ σ) : Prop :=
  m.Fits true run.inst ∧ (run.inst.terminated = true ∨
    (nested = false → run.arrived = []) ∧ L.Ordered (run.arrived ++ B) ∧ H {w | w ∈ run.arrived ++ B} run.inst)

def Settled (Q : Set RegionId) (W : Set VertexId) (i : Instance δ) : Prop := L.Holds W Q i

/-- The region of `v` is about to be entered anew; for the root that is everything. -/
def Opened (v : VertexId) (Q : Set RegionId) (W : Set VertexId) (i : Instance δ) : Prop :=
  ∀ r, m.parent? v = some r → L.Holds (W ∪ {w | m.Above r w}) (Q ∪ {q | m.Encloses r q}) i

variable {L}

theorem Kept.imp {run : Run μ δ σ} (hk : L.Kept nested B H run) (hH : ∀ W i, H W i → H' W i) :
    L.Kept nested B H' run :=
  ⟨hk.1, hk.2.imp id fun ⟨hn, ho, hh⟩ => ⟨hn, ho, hH _ _ hh⟩⟩

theorem Kept.nest {run : Run μ δ σ} (hk : L.Kept nested B H run) : L.Kept true B H run :=
  ⟨hk.1, hk.2.imp id fun ⟨_, ho, hh⟩ => ⟨by simp, ho, hh⟩⟩

theorem settled_mono {Q' : Set RegionId} (hQ : Q ⊆ Q') {W : Set VertexId} {i : Instance δ} (hs : L.Settled Q W i) :
    L.Settled Q' W i := L.mono (fun _ h => h) hQ hs

theorem Settled.opened {W : Set VertexId} {i : Instance δ} (hs : L.Settled Q W i) (v : VertexId) : L.Opened v Q W i :=
  fun _ _ => L.mono Set.subset_union_left Set.subset_union_left hs

theorem Opened.release {v : VertexId} {r : RegionId} {W : Set VertexId} {i : Instance δ} (ho : L.Opened v Q W i)
    (hv : m.parent? v = some r) (hr : ¬ m.LeadsOn r) : L.Settled Q W i := L.release hr (ho r hv)

theorem calm_settled : ∀ W (i i' : Instance δ), i'.records = i.records → L.Settled Q W i → L.Settled Q W i' :=
  fun _ _ _ hr hs => L.congr hr hs

theorem calm_opened (v : VertexId) :
    ∀ W (i i' : Instance δ), i'.records = i.records → L.Opened v Q W i → L.Opened v Q W i' :=
  fun _ _ _ hr ho r hv => L.congr hr (ho r hv)

theorem calm_kept (hH : ∀ W (i i' : Instance δ), i'.records = i.records → H W i → H W i') :
    Calm (L.Kept nested B H : Run μ δ σ → Prop) := by
  intro run run' hr ht ha hk
  refine ⟨hk.1.congr hr, ?_⟩
  rw [ht, ha]
  exact hk.2.imp id fun ⟨hn, ho, hh⟩ => ⟨hn, ho, hH _ _ _ hr hh⟩

theorem settled_widen {W W' : Set VertexId} {i : Instance δ} (hW : W ⊆ W') (hs : L.Settled Q W i) : L.Settled Q W' i :=
  L.mono hW (fun _ h => h) hs

theorem opened_widen {v : VertexId} {W W' : Set VertexId} {i : Instance δ} (hW : W ⊆ W') (ho : L.Opened v Q W i) :
    L.Opened v Q W' i :=
  fun r hr => L.mono (Set.union_subset_union_left _ hW) (fun _ h => h) (ho r hr)

theorem Kept.push {run : Run μ δ σ} (hk : L.Kept nested B H run) {v : VertexId} (hv : m.Watched L.covered B v)
    (hH : ∀ W W' i, W ⊆ W' → H W i → H W' i) : L.Kept nested (v :: B) H run := by
  refine ⟨hk.1, hk.2.imp id fun ⟨hn, ho, hh⟩ => ⟨hn, ho.insert hv, hH _ _ _ ?_ hh⟩⟩
  exact fun w hw => List.mem_append.mpr ((List.mem_append.mp hw).imp id (List.mem_cons_of_mem v))

theorem Kept.arrive {run : Run μ δ σ} {v : VertexId} (hk : L.Kept true (v :: B) H run) :
    L.Kept true B H { run with arrived := run.arrived ++ [v] } := by
  refine ⟨hk.1, hk.2.imp id fun ⟨hn, ho, hh⟩ => ⟨by simp, ?_, ?_⟩⟩
  · simpa using ho
  · simpa using hh

/-! ## Entering vertices -/

abbrev Leads (m : Model μ δ) (plainly : RegionId → Bool) (c : Context σ) (n : Nat) (mode : Mode μ)
    (P : Run μ δ σ → Prop) (l : List (Step μ δ)) (R : Run μ δ σ → Prop) : Prop :=
  Does m (m.compileWith plainly) c (fun _ _ => True) n mode P l R

section
variable (h : m.Arena) (ht : m.Tame) {plainly : RegionId → Bool} {c : Context σ} {n : Nat} {mode : Mode μ}

/-- How a run must stand for a transition to be followed: one that leads out of its region finds that opened. -/
def Ready (L : Ledger m) (record : Transition μ δ) (Q : Set RegionId) (W : Set VertexId) (i : Instance δ) : Prop :=
  L.Settled Q W i ∨ (∃ u, record.target = some u ∧ ¬ m.IsLocal record u) ∧ L.Opened record.source Q W i

def Traverses (L : Ledger m) (plainly : RegionId → Bool) (c : Context σ) (k : Nat) : Prop :=
  ∀ (mode : Mode μ) t record B Q, m.transition? t = some record → m.Watched L.covered B record.source →
    L.Heeded B t → Triple (L.Kept mode.nested B (L.Ready record Q)) (traverse m (m.compileWith plainly) c k mode t)
      (fun _ => L.Kept mode.nested B (L.Settled Q)) fun _ _ => True

theorem unheeded {P : Run μ δ σ → Prop} (run : Run μ δ σ) (_ : P run) :
    (fun (_ : Halt) (_ : Run μ δ σ) => True) .outOfFuel run := trivial

include h ht in
theorem leads_beginEnterState {v : VertexId} (hv : m.isState v = true) (hw : m.Watched L.covered B v)
    (hn : L.Noted B v) (hc : L.covered v → v ∈ B) :
    Leads m plainly c n mode (L.Kept nested B (L.Opened v Q)) (m.beginEnterVertex v)
      (L.Kept nested B (L.Settled (Q ∪ {q | q ∈ m.regionsOf v}))) := by
  obtain ⟨l, hl, _, heq⟩ := beginEnterVertex_of_isState ht hv
  rw [heq]
  refine Does.append (Does.inert unheeded hl (calm_kept (calm_opened v))) ?_
  rcases h.root_or_owner (vertex?_isSome_of_isState hv) with rfl | ⟨r, o, hp, ho, _⟩
  · rw [h.parent?_root]
    exact Does.nil fun run hk => hk.imp fun W i _ => L.restart fun q hq => Or.inr hq
  · rw [hp]
    refine Does.single unheeded fun fuel _ => triple_record unheeded fun run hk => ?_
    refine ⟨hk.1.setCurrent hp fun _ => hv, hk.2.imp id fun ⟨hnested, ho', hh⟩ => ⟨hnested, ho', ?_⟩⟩
    refine L.record hp hv ho (fun hco => ?_) (fun hlo hf => ?_) (fun hcv => ?_) (hh r hp)
    · exact List.mem_append_right _ (hw r o ho (above_parent h hp) hco)
    · exact List.mem_append_right _ (hn r o hp ho hlo hf)
    · exact List.mem_append_right _ (hc hcv)

theorem leads_beginEnterPseudo {v : VertexId} (hv : (m.vertex? v).isSome) (hs : m.isState v = false)
    (hH : ∀ W (i i' : Instance δ), i'.records = i.records → H W i → H W i') :
    Leads m plainly c n mode (L.Kept nested B H) (m.beginEnterVertex v)
      (L.Kept nested B fun W i => (m.isInitial v = true ∨ m.isBranch v = true) ∧ H W i) := by
  have hann : Leads m plainly c n mode (L.Kept nested B H) [.announceEnter (.vertex v)] (L.Kept nested B H) :=
    Does.inert unheeded (by simp [IsInert]) (calm_kept hH)
  rcases beginEnterVertex_of_not_isState hv hs with ⟨heq, hkind⟩ | ⟨heq, _⟩
  · rw [heq]
    exact hann.post fun run hk => hk.imp fun _ _ hh => ⟨hkind, hh⟩
  · rw [heq]
    refine hann.append ?_
    exact Does.single unheeded fun fuel _ => triple_terminate unheeded fun run hk => ⟨hk.1.congr rfl, Or.inl rfl⟩

include h in
theorem Opened.ready {v : VertexId} {t : TransitionId} {record : Transition μ δ} {W : Set VertexId} {i : Instance δ}
    (ho : L.Opened v Q W i) (hs : m.isState v = false) (hv : m.isInitial v = true ∨ m.isBranch v = true)
    (ht : t ∈ m.outgoing v) (hrec : m.transition? t = some record) : record.source = v ∧ L.Ready record Q W i := by
  obtain ⟨_, hrec', hsource⟩ := h.source_of_mem_outgoing ht
  rw [hrec] at hrec'; cases hrec'
  refine ⟨hsource, ?_⟩
  cases hu : record.target with
  | some u =>
    refine Or.inr ⟨⟨u, hu, not_isLocal_of_not_isState h (hsource ▸ hs) (h.target_isSome hrec hu)⟩, hsource ▸ ho⟩
  | none =>
    obtain ⟨r, hp⟩ := h.exists_parent? (hsource ▸ h.source_isSome hrec) hs
    refine Or.inl (ho.release hp fun hleads => ?_)
    have := (hleads.2 v (h.mem_verticesOf.mpr hp)).2 hv t ht
    simp [HasTarget, hrec, hu] at this

include h in
theorem leads_endEnterPseudo (hT : ∀ k < n, Traverses L plainly c k) {v : VertexId} (hi : m.isInitial v = true)
    (hw : m.Watched L.covered B v) :
    Leads m plainly c n mode (L.Kept mode.nested B (L.Opened v Q)) (m.endEnterPseudo v)
      (L.Kept mode.nested B (L.Settled Q)) := by
  have hs := isState_eq_false_of_isInitial hi
  rcases endEnterPseudo_cases m v with ⟨heq, hnone⟩ | ⟨t, rest, _, hout, heq⟩ <;> rw [heq]
  · obtain ⟨r, hp⟩ := h.exists_parent? (vertex?_isSome_of_isInitial hi) hs
    refine Does.nil fun run hk => hk.imp fun _ _ ho => ho.release hp fun hleads => ?_
    exact (hleads.2 v (h.mem_verticesOf.mpr hp)).1 hi (hnone hi)
  · have hmem : t ∈ m.outgoing v := by simp [hout]
    obtain ⟨record, hrec, hsource⟩ := h.source_of_mem_outgoing hmem
    refine Does.single unheeded fun fuel hf => triple_traverseStep unheeded fun k hk => ?_
    have hheeded : L.Heeded B t := fun q s _ _ => Or.inr (.initial hrec (hsource ▸ hi))
    refine (hT k (by omega) mode t record B Q hrec (hsource ▸ hw) hheeded).pre fun run hk' => hk'.imp fun W i ho => ?_
    exact (Opened.ready h ho hs (Or.inl hi) hmem hrec).2

def Enters (L : Ledger m) (plainly : RegionId → Bool) (c : Context σ) (n : Nat) : Prop :=
  ∀ (mode : Mode μ) B Q q, m.Guarded L.covered B q → (mode.deep = true → m.isUnderDeepHistory q = true) →
    Leads m plainly c n mode (L.Kept mode.nested B (L.Settled (insert q Q))) (m.endEnterRegion plainly q)
      (L.Kept mode.nested B (L.Settled Q))

include h in
theorem leads_endEnterState (hR : Enters L plainly c n) {v : VertexId} (hv : m.isState v = true)
    (hw : m.Watched L.covered B v) (hc : L.covered v → v ∈ B)
    (hdeep : mode.deep = true → ∀ q ∈ m.regionsOf v, m.isUnderDeepHistory q = true) :
    Leads m plainly c n mode (L.Kept mode.nested B (L.Settled (Q ∪ {q | q ∈ m.regionsOf v})))
      (m.endEnterVertex plainly v) (L.Kept mode.nested B (L.Settled Q)) := by
  rw [endEnterVertex_of_isState hv]
  refine Does.post (Does.flatMap (I := fun rs => L.Kept mode.nested B (L.Settled (Q ∪ {q | q ∈ rs}))) _
    fun done q rest hsplit => ?_) fun run hk => hk.imp fun _ _ => settled_mono (by simp)
  have hq : q ∈ m.regionsOf v := by simp [← hsplit]
  refine Does.append (Does.inert unheeded (by simp [beginEnterRegion, IsInert]) (calm_kept calm_settled)) ?_
  refine (hR mode B (Q ∪ {q | q ∈ rest}) q (hw.guarded (h.mem_regionsOf.mp hq) hc) fun hd => hdeep hd q hq).pre
    fun run hk => hk.imp fun _ _ => settled_mono ?_
  rintro q' (hq' | hq')
  · exact Or.inr (Or.inl hq')
  · exact (List.mem_cons.mp hq').imp id Or.inr

theorem Settled.opened_of_insert {q : RegionId} {v : VertexId} {W : Set VertexId} {i : Instance δ}
    (hs : L.Settled (insert q Q) W i) (hv : m.parent? v = some q) : L.Opened v Q W i := by
  intro r hr
  rw [hv] at hr; cases hr
  refine L.mono Set.subset_union_left ?_ hs
  rintro q' (rfl | hq')
  · exact Or.inr (encloses_refl q')
  · exact Or.inl hq'

include h ht in
theorem enters (hT : ∀ k < n, Traverses L plainly c k) : Enters L plainly c n := by
  -- What history brings back has regions to be entered as well, with less fuel.
  induction n using Nat.strongRecOn with
  | ind n ih =>
  intro mode B Q q hg hdeep
  have hbegin : ∀ v, m.head? q = some v → ∀ k deep,
      Leads m plainly c k { mode with deep } (L.Kept mode.nested B (L.Settled (insert q Q))) (m.beginEnterVertex v)
        (L.Kept mode.nested B (L.Opened v Q)) := by
    intro v hv k deep
    have hi := isInitial_of_head? hv
    refine (leads_beginEnterPseudo (vertex?_isSome_of_isInitial hi) (isState_eq_false_of_isInitial hi)
      (calm_opened v)).conseq (fun run hk => hk.imp fun _ _ hs => hs.opened_of_insert (parent?_of_head? h hv)) ?_
    exact fun run hk => hk.imp fun _ _ => And.right
  have hend : ∀ v, m.head? q = some v → ∀ k ≤ n, ∀ deep,
      Leads m plainly c k { mode with deep } (L.Kept mode.nested B (L.Opened v Q)) (m.endEnterPseudo v)
        (L.Kept mode.nested B (L.Settled Q)) := fun v hv k hk deep =>
    leads_endEnterPseudo h (fun j hj => hT j (by omega)) (isInitial_of_head? hv) (hg.watched h (parent?_of_head? h hv))
  -- The region is entered by a step of its own, or its head is entered there and then.
  rcases endEnterRegion_cases m plainly q with heq | ⟨v, hv, _, heq⟩ <;> rw [heq]
  · refine Does.single unheeded fun fuel hf => triple_enterRegion unheeded (fun _ _ _ _ _ => trivial) ?_ ?_ ?_
    · intro hnone run hk
      refine hk.imp fun W i hs => L.release (r := q) (fun hleads => ?_) ?_
      · obtain ⟨⟨v, hv, hi⟩, _⟩ := hleads
        exact absurd (List.find?_eq_none.mp hnone v hv) (by simp [hi])
      · refine L.mono Set.subset_union_left ?_ hs
        rintro q' (rfl | hq')
        · exact Or.inr (encloses_refl q')
        · exact Or.inl hq'
    · -- What history brings back is a state of the region that is not covered.
      intro v hmode k hk
      refine Triple.assume fun run hr => ?_
      obtain ⟨hp, hs⟩ := hr.1.1 q v hr.2
      replace hs := hs rfl
      have hrecalls : m.Recalls q := by
        rcases Bool.or_eq_true_iff.mp hmode with hd | hh
        · exact Or.inl (hdeep hd)
        · exact Or.inr hh
      have hc : L.covered v → v ∈ B := fun hc => absurd hrecalls (L.forgets hc hp)
      have hw : m.Watched L.covered B v := hg.watched h hp
      have hn : L.Noted B v := by
        intro r o hp' ho hl _
        rw [hp] at hp'; cases hp'
        exact absurd hrecalls (L.lasts hl ho).forgets
      refine Triple.start (P := L.Kept mode.nested B (L.Opened v Q)) ?_
        (hr.1.imp fun _ _ hs => Settled.opened_of_insert hs hp)
      refine Triple.bind (leads_beginEnterState h ht hs hw hn hc k (Nat.le_refl k)) fun _ => ?_
      have hregions : Leads m plainly c k { mode with deep := mode.deep || m.headKind? q == some .deepHistory }
          (L.Kept mode.nested B (L.Settled (Q ∪ {q | q ∈ m.regionsOf v}))) (m.endEnterVertex plainly v)
          (L.Kept mode.nested B (L.Settled Q)) := by
        refine leads_endEnterState h (ih k (by omega) fun j hj => hT j (by omega)) hs hw hc fun hd q' hq' => ?_
        exact isUnderDeepHistory_of_owner h hp (h.mem_regionsOf.mp hq') ((Bool.or_eq_true_iff.mp hd).imp hdeep id)
      exact hregions k (Nat.le_refl k)
    · intro v hv k hk
      have hi := isInitial_of_head? hv
      refine Triple.bind ((hbegin v hv k _ k (Nat.le_refl k)).pre fun _ hr => hr.1) fun _ => ?_
      have hshape : m.endEnterVertex plainly v = m.endEnterPseudo v :=
        endEnterVertex_of_not_isState (vertex?_isSome_of_isInitial hi) (isState_eq_false_of_isInitial hi)
      rw [hshape]
      exact hend v hv k (by omega) _ k (Nat.le_refl k)
  · exact (hbegin v hv n mode.deep).append (hend v hv n (Nat.le_refl n) mode.deep)

/-! ## Following transitions -/

def Reached (L : Ledger m) (u : VertexId) (Q : Set RegionId) (W : Set VertexId) (i : Instance δ) : Prop :=
  m.isState u = true ∧ L.Settled (Q ∪ {q | q ∈ m.regionsOf u}) W i ∨
    m.isState u = false ∧ (m.isInitial u = true ∨ m.isBranch u = true) ∧ L.Opened u Q W i

def Landed (L : Ledger m) (u : VertexId) (Q : Set RegionId) (W : Set VertexId) (i : Instance δ) : Prop :=
  L.Settled Q W i ∨ m.isState u = false ∧ m.isBranch u = true ∧ L.Opened u Q W i

include h ht in
theorem leads_cascade (hR : Enters L plainly c n) (hmode : mode.deep = false) {l : List VertexId} {u : VertexId}
    (hl : m.Descent l u) (hu : (m.vertex? u).isSome)
    (hpassed : ∀ v ∈ l, ∀ q, m.owner? q = some v → m.Above q u → ¬ L.covered v) (hn : ∀ v ∈ l, L.Noted B v)
    (hw : m.Watched L.covered B u) (hc : m.isState u = true → L.covered u → u ∈ B) {v : VertexId}
    {rest : List VertexId} (hv : l = v :: rest) :
    Leads m plainly c n mode (L.Kept mode.nested B (L.Opened v Q)) (m.cascade plainly l)
      (L.Kept mode.nested B (L.Reached u Q)) := by
  induction hl generalizing v rest with
  | last u =>
    cases hv
    cases hs : m.isState u with
    | true =>
      exact (leads_beginEnterState h ht hs hw (hn u (by simp)) (hc hs)).post fun run hk => hk.imp fun _ _ hh =>
        Or.inl ⟨hs, hh⟩
    | false =>
      exact (leads_beginEnterPseudo hu hs (calm_opened u)).post fun run hk => hk.imp fun _ _ hh => Or.inr ⟨hs, hh⟩
  | @step v w u r rest hp hr hrest ih =>
    cases hv
    have hru : m.Above r u := hrest.above h hp
    -- The way down passes `v` by, so `v` is not covered and need not be listed.
    have hnot : ¬ L.covered v := hpassed v (by simp) r hr hru
    have hwv : m.Watched L.covered B v := fun q s hq ha hs => hw q s hq (above_trans h (Or.inr ⟨v, hr, ha⟩) u hu hru) hs
    refine Does.append (Does.append (leads_beginEnterState h ht (h.isState_of_owner? hr) hwv (hn v (by simp))
      fun hcov => absurd hcov hnot) ?_) (ih hu (fun v' hv' => hpassed v' (List.mem_cons_of_mem _ hv'))
      (fun v' hv' => hn v' (List.mem_cons_of_mem _ hv')) hw hc rfl)
    -- Pending are the regions on the list `rs`, and all along the one that the way goes through.
    refine Does.conseq (Does.flatMap (I := fun rs => L.Kept mode.nested B (L.Settled (insert r Q ∪ {q | q ∈ rs}))) _
      fun done q rs hsplit => ?_) (fun run hk => hk.imp fun _ _ => settled_mono ?_)
      fun run hk => hk.imp fun _ _ hh => (settled_mono (by simp) hh : L.Settled (insert r Q) _ _).opened_of_insert hp
    · refine Does.append (Does.inert unheeded (by simp [beginEnterRegion, IsInert]) (calm_kept calm_settled)) ?_
      split
      · rename_i hq
        rw [hp] at hq; cases hq
        refine Does.nil fun run hk => hk.imp fun _ _ => settled_mono ?_
        rintro q' (hq' | hq')
        · exact Or.inl hq'
        · exact (List.mem_cons.mp hq').elim (fun hq' => Or.inl (Or.inl hq')) Or.inr
      · have hq : m.owner? q = some v := h.mem_regionsOf.mp (by simp [← hsplit])
        refine (hR mode B (insert r Q ∪ {q | q ∈ rs}) q (hwv.guarded hq fun hcov => absurd hcov hnot)
          fun hd => by rw [hmode] at hd; cases hd).pre fun run hk => hk.imp fun _ _ => settled_mono ?_
        rintro q' (hq' | hq')
        · exact Or.inr (Or.inl hq')
        · exact (List.mem_cons.mp hq').imp id Or.inr
    · rintro q' (hq' | hq')
      · exact Or.inl (Or.inr hq')
      · exact Or.inr hq'

include h ht in
theorem leads_arrival (hT : ∀ k < n, Traverses L plainly c k) (hmode : mode.deep = false) (t : TransitionId)
    {v u : VertexId} {rest : List VertexId} (hl : m.Descent (v :: rest) u) (hu : (m.vertex? u).isSome)
    (hpassed : ∀ w ∈ v :: rest, ∀ q, m.owner? q = some w → m.Above q u → ¬ L.covered w)
    (hn : ∀ w ∈ v :: rest, L.Noted B w) (hw : m.Watched L.covered B u) (hc : m.isState u = true → L.covered u → u ∈ B) :
    Leads m plainly c n mode (L.Kept mode.nested B (L.Opened v Q)) (m.arrival plainly t (v :: rest) u)
      (L.Kept mode.nested B (L.Landed u Q)) := by
  have hR := enters h ht hT
  refine Does.append (Does.append (Does.inert unheeded (isInert_effectsOf ht t) (calm_kept (calm_opened v)))
    (leads_cascade h ht hR hmode hl hu hpassed hn hw hc rfl)) ?_
  cases hs : m.isState u with
  | true =>
    refine (leads_endEnterState h hR hs hw (hc hs) fun hd => by rw [hmode] at hd; cases hd).conseq
      (fun run hk => hk.imp fun _ _ hh => ?_) fun run hk => hk.imp fun _ _ => Or.inl
    exact hh.elim And.right fun hh => by rw [hs] at hh; cases hh.1
  | false =>
    have hopened : ∀ W i, L.Reached u Q W i → (m.isInitial u = true ∨ m.isBranch u = true) ∧ L.Opened u Q W i :=
      fun _ _ hh => hh.elim (fun hh => by rw [hs] at hh; cases hh.1) And.right
    rw [endEnterVertex_of_not_isState hu hs]
    cases hi : m.isInitial u with
    | true =>
      exact (leads_endEnterPseudo h hT hi hw).conseq (fun run hk => hk.imp fun _ _ hh => (hopened _ _ hh).2)
        fun run hk => hk.imp fun _ _ => Or.inl
    | false =>
      have hnil : m.endEnterPseudo u = [] := by simp [endEnterPseudo, hi]
      rw [hnil]
      refine Does.nil fun run hk => hk.imp fun _ _ hh => Or.inr ⟨hs, ?_, (hopened _ _ hh).2⟩
      exact (hopened _ _ hh).1.resolve_left (by simp [hi])

include h in
theorem Opened.of_mem_chain {x d e : VertexId} {W : Set VertexId} {i : Instance δ} (ho : L.Opened x Q W i)
    (hx : (m.vertex? x).isSome) (hd : d ∈ m.chain x) (hde : m.parent? d = m.parent? e) : L.Opened e Q W i := by
  intro r hr
  have hrx : m.Above r x := above_of_mem_chain h (hde.trans hr) x hx hd
  rcases h.root_or_owner hx with rfl | ⟨p, o, hp, _, _⟩
  · exact absurd hrx (not_above_root h r)
  · have hrp : m.Encloses r p := (above_iff h hp r).mp hrx
    refine L.mono ?_ ?_ (ho p hp)
    · exact Set.union_subset_union_right _ fun w hw => above_trans h hrp w (vertex?_isSome_of_above hw) hw
    · exact Set.union_subset_union_right _ fun q hq => encloses_trans h hrp hq

include h ht in
theorem leads_route (hT : ∀ k < n, Traverses L plainly c k) (hmode : mode.deep = false) {t : TransitionId}
    {record : Transition μ δ} {u : VertexId} (hrec : m.transition? t = some record) (hu : record.target = some u)
    (hn : ∀ v ∈ m.chain u, L.Noted B v) (hw : m.Watched L.covered B u)
    (hc : m.isState u = true → L.covered u → u ∈ B) (i : Instance δ) :
    Leads m plainly c n mode (L.Kept mode.nested B (L.Ready record Q)) ((m.route plainly t).steps i)
      (L.Kept mode.nested B (L.Landed u Q)) := by
  have hx := h.source_isSome hrec
  have hku := h.target_isSome hrec hu
  -- A covered state is never entered by way of one of its regions from outside of that region.
  have hcovered : ∀ {w q}, m.owner? q = some w → m.Above q u → ¬ m.Above q record.source → ¬ L.covered w :=
    fun hq hqu hqx hcov => hqx (L.enclosed hrec hu hq hcov hqu)
  by_cases hl : m.IsLocal record u
  · have hsettled : ∀ W i, L.Ready record Q W i → L.Settled Q W i := by
      rintro W i (hs | ⟨⟨u', hu', hnot⟩, _⟩)
      · exact hs
      · rw [hu] at hu'; cases hu'; exact absurd hl hnot
    have hxu : record.source ∈ m.chain u := (isAncestor_iff h hku).mp hl.2.2
    obtain ⟨l', v, rest, r, hsplit, hv, heq, _⟩ := steps_local hrec h hu hl i
    rw [heq]
    have hchain : m.chain u = (m.chain record.source ++ l') ++ v :: rest :=
      (chain_append_below h hku hxu).trans (by rw [hsplit, List.append_assoc])
    have hdescent : m.Descent (v :: rest) u := descent_of_append h hku hchain
    refine Does.append (R := L.Kept mode.nested B (L.Opened v Q)) ?_
      (leads_arrival h ht hT hmode t hdescent hku (fun w hm q hq hqu => ?_) (fun w hm => hn w ?_) hw hc)
    · refine (Does.quiet ht (calm_kept calm_settled) n mode _ ?_).conseq
        (fun run hk => hk.imp hsettled) fun run hk => hk.imp fun _ _ hs => Settled.opened hs v
      simp [leaveRegion, IsQuiet, IsInert]
    · refine hcovered hq hqu (not_above_of_mem_below h hx hku hxu ?_ hq)
      rw [hsplit]; exact List.mem_append_right _ hm
    · rw [hchain]; exact List.mem_append_right _ hm
  · obtain ⟨d, e, rest, hd, hdrop, hde, heq⟩ := steps_direct hrec hu hl i
    rw [heq]
    have hdescent : m.Descent (e :: rest) u := descent_of_drop h hku hdrop
    refine Does.append (R := L.Kept mode.nested B (L.Opened e Q)) ?_
      (leads_arrival h ht hT hmode t hdescent hku (fun w hm q hq hqu => ?_)
        (fun w hm => hn w (List.mem_of_mem_drop (hdrop ▸ hm))) hw hc)
    · refine (Does.quiet ht (calm_kept (calm_opened e)) n mode _ (isQuiet_leaveVertex ht d)).pre
        fun run hk => hk.imp fun W i hr => ?_
      rcases hr with hs | ⟨_, ho⟩
      · exact Settled.opened hs e
      · exact ho.of_mem_chain h hx (List.mem_of_getElem? hd) hde
    · exact hcovered hq hqu (not_above_of_mem_drop h hku (hdrop ▸ hm) hq hqu)

def Follows (L : Ledger m) (plainly : RegionId → Bool) (c : Context σ) (k : Nat) : Prop :=
  ∀ (trigger : Trigger μ) t record B Q, m.transition? t = some record → m.Watched L.covered B record.source →
    L.Heeded B t → Triple (L.Kept true B (L.Ready record Q)) (follow m (m.compileWith plainly) c k trigger t)
      (fun _ => L.Kept true B (L.Settled Q)) fun _ _ => True

theorem calm_ready (record : Transition μ δ) :
    ∀ W (i i' : Instance δ), i'.records = i.records → L.Ready record Q W i → L.Ready record Q W i' :=
  fun W i i' hr hh => hh.imp (calm_settled W i i' hr) (And.imp id (calm_opened record.source W i i' hr))

theorem calm_landed (u : VertexId) :
    ∀ W (i i' : Instance δ), i'.records = i.records → L.Landed u Q W i → L.Landed u Q W i' :=
  fun W i i' hr hh => hh.imp (calm_settled W i i' hr) (And.imp id (And.imp id (calm_opened u W i i' hr)))

theorem watched_target {t : TransitionId} {record : Transition μ δ} {u : VertexId}
    (hrec : m.transition? t = some record) (hu : record.target = some u) (hw : m.Watched L.covered B record.source) :
    m.Watched L.covered B u := fun q s hq ha hs => hw q s hq (L.enclosed hrec hu hq hs ha) hs

include h ht in
theorem follows (hc : c.IsStrict) (hT : ∀ k < n, Traverses L plainly c k) (hF : ∀ k < n, Follows L plainly c k) :
    Follows L plainly c n := by
  intro trigger t record B Q hrec hw hheeded
  have hroute : (m.compileWith plainly).route? t = some (m.route plainly t) := route?_compileWith (by simp [hrec])
  cases hu : record.target with
  | none =>
    refine triple_follow (R := L.Kept true B (L.Settled Q)) unheeded hrec hroute
      (calm_kept (calm_ready record)).blind.fired (calm_kept calm_settled).blind.aloof (fun i k hk => ?_)
      (fun _ _ hk => hk) (fun _ _ _ _ _ => trivial) ?_ ?_ ?_ (fun _ _ _ _ _ _ => trivial) ?_
    · rw [steps_internal hrec hu]
      refine (Does.inert unheeded (isInert_effectsOf ht t) (calm_kept calm_settled) k (Nat.le_refl k)).pre
        fun run hk => hk.1.imp fun W i hr => ?_
      exact hr.resolve_right fun ⟨⟨u, hu', _⟩, _⟩ => by rw [hu] at hu'; cases hu'
    all_goals rintro u hu'; rw [hu] at hu'; cases hu'
  | some u =>
    have hku := h.target_isSome hrec hu
    have hwu : m.Watched L.covered B u := watched_target hrec hu hw
    have hn : ∀ v ∈ m.chain u, L.Noted B v := fun v hv => hheeded.noted hrec hu hv
    cases hs : m.isState u with
    | true =>
      -- Until the arrival at `u` is noted, `u` has to be listed for it.
      refine triple_follow (R := L.Kept true (u :: B) (L.Landed u Q)) unheeded hrec hroute
        (calm_kept (calm_ready record)).blind.fired (calm_kept (calm_landed u)).blind.aloof (fun i k hk => ?_)
        (fun hu' => by rw [hu] at hu'; cases hu') (fun _ _ _ _ _ => trivial) (fun u' hu' _ run hk => ?_) ?_ ?_
        (fun _ _ _ _ _ _ => trivial) fun _ _ _ hnot => absurd hc hnot
      · refine (leads_route h ht (fun j hj => hT j (by omega)) rfl hrec hu
          (fun v hv => (hn v hv).mono fun w => List.mem_cons_of_mem u) (hwu.mono fun w => List.mem_cons_of_mem u)
          (fun _ _ => by simp) i k (Nat.le_refl k)).pre fun run hk => hk.1.push hwu fun W W' i hW hr => ?_
        exact hr.imp (settled_widen hW) (And.imp id (opened_widen hW))
      · rw [hu] at hu'; cases hu'
        exact hk.arrive.imp fun _ _ hl => hl.resolve_right fun ⟨hs', _⟩ => by rw [hs] at hs'; cases hs'
      · intro u' hu' hs'; rw [hu] at hu'; cases hu'; rw [hs] at hs'; cases hs'
      · intro u' hu' hb; rw [hu] at hu'; cases hu'; rw [isBranch_of_isState hs] at hb; cases hb
    | false =>
      refine triple_follow (R := L.Kept true B (L.Landed u Q)) unheeded hrec hroute
        (calm_kept (calm_ready record)).blind.fired (calm_kept (calm_landed u)).blind.aloof (fun i k hk => ?_)
        (fun hu' => by rw [hu] at hu'; cases hu') (fun _ _ _ _ _ => trivial) ?_ (fun u' hu' _ hb run hk => ?_)
        (fun u' hu' hb next hn' k hk => ?_) (fun _ _ _ _ _ _ => trivial) fun _ _ _ hnot => absurd hc hnot
      · exact (leads_route h ht (fun j hj => hT j (by omega)) rfl hrec hu hn hwu
          (fun hs' => by rw [hs] at hs'; cases hs') i k (Nat.le_refl k)).pre fun run hk => hk.1
      · intro u' hu' hs'; rw [hu] at hu'; cases hu'; rw [hs] at hs'; cases hs'
      · rw [hu] at hu'; cases hu'
        exact hk.imp fun _ _ hl => hl.resolve_right fun ⟨_, hb', _⟩ => by rw [hb] at hb'; cases hb'
      · rw [hu] at hu'; cases hu'
        obtain ⟨record', hrec', hsource⟩ := h.source_of_mem_outgoing hn'
        have hnext : L.Heeded B next := fun q s hq hl =>
          (hheeded q s hq hl).imp id fun hunprompted => .branch hunprompted hrec hu hb hn'
        refine (hF k hk trigger next record' B Q hrec' (hsource ▸ hwu) hnext).pre fun run hk => hk.imp fun W i hl => ?_
        exact hl.elim Or.inl fun ⟨_, _, ho⟩ => (ho.ready h hs (Or.inr hb) hn' hrec').2

/-! ## Traversals, completions and offers -/

def Completes (L : Ledger m) (plainly : RegionId → Bool) (c : Context σ) (k : Nat) : Prop :=
  ∀ v B Q, Triple (L.Kept false (v :: B) (L.Settled Q)) (complete m (m.compileWith plainly) c k v)
    (fun _ => L.Kept false B (L.Settled Q)) fun _ _ => True

theorem traverses (hF : ∀ k < n, Follows L plainly c k) (hC : ∀ k < n, Completes L plainly c k) :
    Traverses L plainly c n := by
  intro mode t record B Q hrec hw hheeded
  refine triple_traverse (R := L.Kept true B (L.Settled Q)) unheeded (fun k hk => ?_) (fun hn run hk => ?_)
    fun hn l k hk => ?_
  · exact (hF k hk mode.trigger t record B Q hrec hw hheeded).pre fun run hk => hk.nest
  · rw [hn]; exact hk
  · refine Triple.conseq (triple_completeAll (I := fun l => L.Kept false (l ++ B) (L.Settled Q)) unheeded
      fun v rest j hj => hC j (by omega) v (rest ++ B) Q) (fun run hr => ?_) (fun _ run hk => ?_) fun _ _ h => h
    · refine ⟨hr.2.1, hr.2.2.imp id fun ⟨_, ho, hh⟩ => ⟨fun _ => hr.1, ?_, ?_⟩⟩
      · rw [hr.1]; exact ho
      · rw [hr.1]; exact hh
    · rw [hn]; exact hk

def Offers (L : Ledger m) (plainly : RegionId → Bool) (c : Context σ) (k : Nat) : Prop :=
  ∀ (trigger : Trigger μ) v B Q, m.Watched L.covered B v →
    ((∀ x, trigger ≠ .completion x) → m.Watched L.lasting B v) → Triple (L.Kept false B (L.Settled Q))
      (offer m (m.compileWith plainly) c k trigger v) (fun _ => L.Kept false B (L.Settled Q)) fun _ _ => True

def OffersBeneath (L : Ledger m) (plainly : RegionId → Bool) (c : Context σ) (k : Nat) : Prop :=
  ∀ (trigger : Trigger μ) v rs B Q, m.Watched L.covered B v →
    ((∀ x, trigger ≠ .completion x) → m.Watched L.lasting B v) → (∀ r ∈ rs, m.owner? r = some v) →
    Triple (L.Kept false B (L.Settled Q)) (offerBeneath m (m.compileWith plainly) c k trigger v rs)
      (fun consumed => L.Kept false (if consumed then v :: B else B) (L.Settled Q)) fun _ _ => True

theorem Kept.drop {run : Run μ δ σ} {v : VertexId} (hk : L.Kept false (v :: B) (L.Settled Q) run)
    (hd : run.inst.terminated = true ∨ (L.covered v ∨ L.lasting v → ¬ m.Due run.inst v)) :
    L.Kept false B (L.Settled Q) run := by
  refine ⟨hk.1, ?_⟩
  rcases hk.2 with ht | ⟨hn, ho, hh⟩
  · exact Or.inl ht
  · refine hd.imp id fun hd => ⟨hn, ?_, L.settle hd (settled_widen ?_ hh)⟩
    · rw [hn rfl] at ho ⊢; exact ho.2
    · rw [hn rfl]; exact fun w hw => (List.mem_cons.mp hw).imp id id

theorem Kept.merge {run : Run μ δ σ} {v : VertexId} (hk : L.Kept false (v :: v :: B) (L.Settled Q) run) :
    L.Kept false (v :: B) (L.Settled Q) run := by
  refine ⟨hk.1, hk.2.imp id fun ⟨hn, ho, hh⟩ => ⟨hn, ?_, settled_widen ?_ hh⟩⟩
  · rw [hn rfl] at ho ⊢; exact ho.2
  · rw [hn rfl]
    exact fun w hw => (List.mem_cons.mp hw).elim (fun hw => by simp [hw]) id

include h in
theorem Kept.reopen {run : Run μ δ σ} {v : VertexId} (hk : L.Kept false (v :: B) (L.Settled Q) run) :
    L.Kept false B (L.Opened v Q) run := by
  refine ⟨hk.1, hk.2.imp id fun ⟨hn, ho, hh⟩ => ⟨hn, ?_, fun r hr => L.mono ?_ Set.subset_union_left hh⟩⟩
  · rw [hn rfl] at ho ⊢; exact ho.2
  · rw [hn rfl]
    intro w hw
    rcases List.mem_cons.mp hw with rfl | hw
    · exact Or.inr (above_parent h hr)
    · exact Or.inl hw

include h in
theorem triple_offer_due (hc : c.IsStrict) (hT : ∀ k < n, Traverses L plainly c k) {v : VertexId}
    (hs : m.isState v = true) (hcov : L.covered v ∨ L.lasting v) (hcompletion : m.HasCompletion v)
    (hw : m.Watched L.covered B v) :
    Triple (fun run : Run μ δ σ => L.Kept false (v :: B) (L.Settled Q) run ∧ run.inst.terminated = false)
      (offer m (m.compileWith plainly) c n (.completion v) v) (fun _ => L.Kept false B (L.Settled Q))
      fun _ _ => True := by
  obtain ⟨t₀, hout, record, hrec, hguard⟩ := hcompletion
  obtain ⟨_, hrec', hsource⟩ := h.source_of_mem_outgoing hout
  rw [hrec] at hrec'; cases hrec'
  -- The transition on completion is enabled whatever the instance, so the offer ends with it or with an error.
  have henabled : ∀ i, t₀ ∈ enabled m v (m.outgoing v) (.completion v) i := by
    intro i
    refine List.mem_filter.mpr ⟨hout, ?_⟩
    rw [hrec]
    simp [hguard, Guard.check, Trigger.isCompletionOf]
  have hblind : Blind fun run : Run μ δ σ => L.Kept false (v :: B) (L.Settled Q) run ∧ run.inst.terminated = false :=
    Blind.and (calm_kept calm_settled).blind fun _ _ _ _ hr => hr
  refine triple_offer (Y := fun _ => False) unheeded hblind.offered (fun _ _ _ => trivial)
    (fun run hr hidle => ?_) (fun _ _ run hr _ => hr) (fun _ hne => absurd rfl hne) (fun _ _ _ _ hr => hr.elim)
    (fun run hr hnone => ?_) (fun _ t k hk => ?_) fun _ _ _ =>
      hblind.several (fun _ _ _ => trivial) fun hnot => absurd hc hnot
  · rcases hidle with hs' | ht
    · rw [hs] at hs'; cases hs'
    · rw [hr.2] at ht; cases ht
  · have := henabled run.inst
    rw [hnone] at this; cases this
  · refine Triple.assume fun run hr => ?_
    have hmem := henabled run.inst
    rw [hr.2, List.mem_singleton] at hmem; subst hmem
    have hkind := L.external hrec (hsource ▸ hcov) hguard
    have htarget : ∃ u, record.target = some u ∧ ¬ m.IsLocal record u := by
      cases hu : record.target with
      | none => rw [(h.internal_iff hrec).mpr hu] at hkind; cases hkind
      | some u => exact ⟨u, rfl, fun hl => by rw [hl.1] at hkind; cases hkind⟩
    have hheeded : L.Heeded B t₀ := fun q s _ _ => Or.inr (.completion hrec (hsource ▸ hs) hguard)
    refine (hT k hk { trigger := .completion v } t₀ record B Q hrec (hsource ▸ hw) hheeded).start ?_
    exact (hr.1.1.reopen h).imp fun W i ho => Or.inr ⟨htarget, hsource ▸ ho⟩

include h in
theorem completes (hc : c.IsStrict) (hT : ∀ k < n, Traverses L plainly c k) (hO : ∀ k < n, Offers L plainly c k) :
    Completes L plainly c n := by
  intro v B Q
  refine triple_complete unheeded (fun _ _ _ => trivial) (fun _ _ _ => trivial) (fun run hk hidle => ?_) fun k hk => ?_
  · refine hk.drop (hidle.imp id fun hidle _ hdue => ?_)
    rcases hidle with ha | hd
    · have := hdue.1
      simp only [Model.isActive, ha, Option.getD_some] at this; cases this
    · rw [hdue.2.1] at hd; cases hd
  · refine Triple.assume fun run hr => ?_
    obtain ⟨hkept, hnot, hactive, hcomplete⟩ := hr
    have hw : m.Watched L.covered B v := by
      rcases hkept.2 with ht | ⟨hn, ho, _⟩
      · rw [hnot] at ht; cases ht
      · rw [hn rfl] at ho; exact ho.1
    by_cases hdue : (L.covered v ∨ L.lasting v) ∧ m.HasCompletion v
    · have hs : m.isState v = true := by
        cases hv : m.vertex? v with
        | none => simp [isComplete?, hv] at hcomplete
        | some record =>
          cases hf : record.form with
          | pseudo kind => simp [isComplete?, hv, hf] at hcomplete
          | state content => exact isState_iff.mpr ⟨record, content, hv, hf⟩
      exact (triple_offer_due h hc (fun j hj => hT j (by omega)) hs hdue.1 hdue.2 hw).start ⟨hkept, hnot⟩
    · refine (hO k hk (.completion v) v B Q hw fun hne => absurd rfl (hne v)).start ?_
      exact hkept.drop (Or.inr fun hcov hd => hdue ⟨hcov, hd.2.2⟩)

theorem heeded_of_enabled {t : TransitionId} {record : Transition μ δ} {trigger : Trigger μ} {i : Instance δ}
    (hrec : m.transition? t = some record) (hs : m.isState record.source = true)
    (hw : (∀ x, trigger ≠ .completion x) → m.Watched L.lasting B record.source)
    (hcheck : record.guard.check record.source trigger i = true) : L.Heeded B t := by
  intro q s hq hl
  by_cases hcompletion : ∃ x, trigger = .completion x
  · obtain ⟨x, rfl⟩ := hcompletion
    by_cases hguard : record.guard = .completion
    · exact Or.inr (.completion hrec hs hguard)
    · rw [L.alone hl hrec hs hguard x i] at hcheck; cases hcheck
  · by_cases ha : m.Above q record.source
    · exact Or.inl (hw (fun x hx => hcompletion ⟨x, hx⟩) q s hq ha hl)
    · exact Or.inr (.outside hrec ha)

include h in
theorem offers (hT : ∀ k < n, Traverses L plainly c k) (hC : ∀ k < n, Completes L plainly c k)
    (hB : ∀ k < n, OffersBeneath L plainly c k) : Offers L plainly c n := by
  intro trigger v B Q hw hwl
  have hblind : Blind (L.Kept false B (L.Settled Q) : Run μ δ σ → Prop) := (calm_kept calm_settled).blind
  refine triple_offer (Y := L.Kept false (v :: B) (L.Settled Q)) (N := L.Kept false B (L.Settled Q))
    unheeded hblind.offered (fun _ _ _ => trivial) (fun _ hk _ => hk) (fun _ _ _ hk _ => hk)
    (fun _ _ k hk => ?_) (fun _ k hk => hC k hk v B Q) (fun _ hk _ => hk) (fun hs t k hk => ?_) fun _ _ _ =>
      hblind.several (fun _ _ _ => trivial) fun _ _ hk => hk
  · refine (hB k hk trigger v (m.regionsOf v) B Q hw hwl fun r hr => h.mem_regionsOf.mp hr).conseq (fun _ hr => hr.1)
      (fun consumed _ hr => ?_) fun _ _ h => h
    cases consumed <;> exact hr
  · refine Triple.assume fun run hr => ?_
    obtain ⟨record, hrec, rfl, hcheck⟩ := source_of_enabled h (hr.2 ▸ List.mem_singleton_self t)
    have hheeded : L.Heeded B t := heeded_of_enabled hrec hs hwl hcheck
    refine (hT k hk { trigger } t record B Q hrec hw hheeded).start ?_
    exact hr.1.imp fun _ _ => Or.inl

include h in
theorem offersBeneath (hO : ∀ k < n, Offers L plainly c k) (hB : ∀ k < n, OffersBeneath L plainly c k) :
    OffersBeneath L plainly c n := by
  intro trigger v rs B Q hw hwl hrs
  cases rs with
  | nil => cases n <;> exact Triple.pure fun _ hk => hk
  | cons r rest =>
    have howner : m.owner? r = some v := hrs r (by simp)
    have hrest : ∀ r' ∈ rest, m.owner? r' = some v := fun r' hr' => hrs r' (List.mem_cons_of_mem _ hr')
    have hwv : m.Watched L.covered (v :: B) v := hw.mono fun w => List.mem_cons_of_mem v
    have hwlv : (∀ x, trigger ≠ .completion x) → m.Watched L.lasting (v :: B) v := fun hne =>
      (hwl hne).mono fun w => List.mem_cons_of_mem v
    refine triple_offerBeneath (Y := L.Kept false (v :: B) (L.Settled Q)) (N := L.Kept false B (L.Settled Q))
      unheeded (fun k hk => (hB k hk trigger v rest B Q hw hwl hrest).pre fun _ hr => hr.1)
      (fun current k hk => ?_)
      (fun k hk => hB k hk trigger v rest B Q hw hwl hrest) (fun _ _ _ => trivial) (fun _ hk => hk) fun k hk => ?_
    · -- What is beneath is offered the trigger while `v` is waited for; what it does not consume changes nothing.
      refine Triple.assume fun run ⟨hkept, hcurrent⟩ => ?_
      have hparent := (hkept.1 r current hcurrent).1
      have hwc : m.Watched L.covered (v :: B) current := (hwv.guarded howner fun _ => by simp).watched h hparent
      have hwlc : (∀ x, trigger ≠ .completion x) → m.Watched L.lasting (v :: B) current := fun hne =>
        ((hwlv hne).guarded howner fun _ => by simp).watched h hparent
      exact ((hO k hk trigger current (v :: B) Q hwc hwlc).withNo
        ((triple_of_not_consumed (calm_kept calm_settled).blind.patient k).1 trigger current)).start
        ⟨hkept.push hw fun _ _ _ => settled_widen, hkept⟩
    · refine (hB k hk trigger v rest (v :: B) Q hwv hwlv hrest).conseq (fun _ hr => hr.1) (fun consumed run hr => ?_)
        fun _ _ h => h
      cases consumed with
      | true => exact hr.merge
      | false => exact hr

include h ht in
theorem parts (hc : c.IsStrict) (k : Nat) : Traverses L plainly c k ∧ Follows L plainly c k ∧
    Completes L plainly c k ∧ Offers L plainly c k ∧ OffersBeneath L plainly c k := by
  induction k using Nat.strongRecOn with
  | ind k ih =>
  exact ⟨traverses (fun j hj => (ih j hj).2.1) fun j hj => (ih j hj).2.2.1,
    follows h ht hc (fun j hj => (ih j hj).1) fun j hj => (ih j hj).2.1,
    completes h hc (fun j hj => (ih j hj).1) fun j hj => (ih j hj).2.2.2.1,
    offers h (fun j hj => (ih j hj).1) (fun j hj => (ih j hj).2.2.1) fun j hj => (ih j hj).2.2.2.2,
    offersBeneath h (fun j hj => (ih j hj).2.2.2.1) fun j hj => (ih j hj).2.2.2.2⟩

end

/-! ## Sessions -/

theorem of_session (h : m.Arena) (ht : m.Tame) {i : Instance δ} {events : List (Event μ δ)}
    (hs : m.Session (EndsWell : Context σ → Option Halt → Prop) i events) :
    m.Fits true i ∧ (i.terminated = true ∨ L.Holds ∅ ∅ i) := by
  have hkept : ∀ run : Run μ δ σ, L.Kept false [] (L.Settled ∅) run →
      m.Fits true run.inst ∧ (run.inst.terminated = true ∨ L.Holds ∅ ∅ run.inst) := by
    refine fun run hk => ⟨hk.1, hk.2.imp id fun ⟨hn, _, hh⟩ => ?_⟩
    rw [hn rfl] at hh
    exact settled_widen (by intro w hw; cases hw) hh
  -- Between calls nothing is pending and nothing listed, and each call starts from there and comes back to it.
  induction hs with
  | @initialise c fuel data s halt run hr ha =>
    obtain ⟨hc, rfl⟩ := ha
    have hroot : ¬ L.covered root := L.not_root
    have hend : Leads m m.isEnteredPlainly c fuel { trigger := .initialise }
        (L.Kept false [] (L.Settled (∅ ∪ {q | q ∈ m.regionsOf root}))) (m.endEnterVertex m.isEnteredPlainly root)
        (L.Kept false [] (L.Settled ∅)) :=
      leads_endEnterState h (enters h ht fun k _ => (parts h ht hc k).1) h.isState_root (watched_root h)
        (fun hcov => absurd hcov hroot) fun hd => by cases hd
    have henter : Leads m m.isEnteredPlainly c fuel { trigger := .initialise } (L.Kept false [] (L.Opened root ∅))
        m.compile.onInitialise (L.Kept false [] (L.Settled ∅)) :=
      (leads_beginEnterState h ht h.isState_root (watched_root h)
        (fun r o hp => by rw [h.parent?_root] at hp; cases hp) fun hcov => absurd hcov hroot).append hend
    have hstart : L.Kept false [] (L.Opened root ∅) ({ inst := { data }, outside := s } : Run μ δ σ) := by
      refine ⟨fits_empty data, Or.inr ⟨fun _ => rfl, trivial, fun r hr => ?_⟩⟩
      rw [h.parent?_root] at hr; cases hr
    cases hres : perform m m.compile c fuel { trigger := .initialise } m.compile.onInitialise
        { inst := { data }, outside := s } with
    | ok a run' =>
      rw [hres] at hr
      obtain ⟨_, rfl⟩ := hr
      exact hkept _ ((henter fuel (Nat.le_refl fuel)).of_ok hstart hres)
    | error e run' => rw [hres] at hr; cases hr.1
  | @evaluate c fuel message s i events halt run hs hn hr ha ih =>
    obtain ⟨hc, rfl⟩ := ha
    have hstart : L.Kept false [] (L.Settled ∅) ({ inst := i, outside := s } : Run μ δ σ) :=
      ⟨ih.1, ih.2.imp id fun hh => ⟨fun _ => rfl, trivial, settled_widen (Set.empty_subset _) hh⟩⟩
    cases hres : offer m m.compile c fuel (.message message) root { inst := i, outside := s } with
    | ok a run' =>
      rw [hres] at hr
      obtain ⟨_, rfl⟩ := hr
      have hoffers : Offers L m.isEnteredPlainly c fuel := (parts h ht hc fuel).2.2.2.1
      exact hkept _ ((hoffers _ root [] ∅ (watched_root h) fun _ => watched_root h).of_ok hstart hres)
    | error e run' => rw [hres] at hr; cases hr.1

end Ledger

end Statechart
