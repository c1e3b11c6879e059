import Mathlib.Data.List.Pairwise
import Statechart.Proofs.Session
import Statechart.Proofs.Zones

/-!
# Who is asked, and who answers

A message is offered to a state by asking it, and a state answers by firing a transition of its own. Only the way of a
message from the root inwards makes states be asked or answer: whatever else happens in the course of an evaluation
asks no one and lets no one answer. So no state is asked twice, and of a state and one beneath it at most one answers.
-/

namespace Statechart

variable {μ δ σ : Type}

/-! ## Asking and answering -/

def Event.asked? : Event μ δ → Option VertexId
  | .offered v (.message _) => some v
  | _ => none

/-- The state that fires a transition of its own upon a message. -/
def Model.answered? (m : Model μ δ) : Event μ δ → Option VertexId
  | .fired t (.message _) _ => (m.source? t).filter m.isState
  | _ => none

def Trigger.IsMessage : Trigger μ → Prop
  | .message _ => True
  | _ => False

namespace Model

variable {m : Model μ δ}

theorem answered?_fired {t : TransitionId} {record : Transition μ δ} (hrec : m.transition? t = some record)
    (hs : m.isState record.source = true) {x : μ} {i : Instance δ} :
    m.answered? (.fired t (.message x) i) = some record.source := by
  simp [answered?, source?, hrec, Option.filter, hs]

def Apart (m : Model μ δ) (v w : VertexId) : Prop := m.isAncestor v w = false ∧ m.isAncestor w v = false

/-- Members of `S` have been asked once each, and those that have answered stand apart. -/
structure Once (m : Model μ δ) (S : VertexId → Prop) (asked answered : List VertexId) : Prop where
  nodup : asked.Nodup
  asked_mem : ∀ v ∈ asked, S v
  apart : answered.Pairwise m.Apart
  answered_mem : ∀ v ∈ answered, S v

theorem once_nil (S : VertexId → Prop) : m.Once S [] [] := ⟨List.nodup_nil, by simp, List.Pairwise.nil, by simp⟩

theorem Once.mono {S S' : VertexId → Prop} {a b : List VertexId} (ho : m.Once S a b) (hS : ∀ v, S v → S' v) :
    m.Once S' a b := ⟨ho.nodup, fun v hv => hS v (ho.asked_mem v hv), ho.apart, fun v hv => hS v (ho.answered_mem v hv)⟩

theorem Once.append {S₁ S₂ : VertexId → Prop} {a₁ a₂ b₁ b₂ : List VertexId} (h₁ : m.Once S₁ a₁ b₁)
    (h₂ : m.Once S₂ a₂ b₂) (hne : ∀ v w, S₂ v → S₁ w → v ≠ w) (hapart : ∀ v w, S₂ v → S₁ w → m.Apart v w) :
    m.Once (fun v => S₁ v ∨ S₂ v) (a₂ ++ a₁) (b₂ ++ b₁) where
  nodup := List.nodup_append.mpr
    ⟨h₂.nodup, h₁.nodup, fun v hv w hw => hne v w (h₂.asked_mem v hv) (h₁.asked_mem w hw)⟩
  asked_mem v hv := (List.mem_append.mp hv).elim (fun hv => Or.inr (h₂.asked_mem v hv)) fun hv =>
    Or.inl (h₁.asked_mem v hv)
  apart := List.pairwise_append.mpr
    ⟨h₂.apart, h₁.apart, fun v hv w hw => hapart v w (h₂.answered_mem v hv) (h₁.answered_mem w hw)⟩
  answered_mem v hv := (List.mem_append.mp hv).elim (fun hv => Or.inr (h₂.answered_mem v hv)) fun hv =>
    Or.inl (h₁.answered_mem v hv)

section
variable (h : m.Arena)
include h

theorem apart_of_above {o v w : VertexId} {q r : RegionId} (hq : m.owner? q = some o) (hr : m.owner? r = some o)
    (hne : q ≠ r) (hv : m.Above q v) (hw : m.Above r w) : v ≠ w ∧ m.Apart v w := by
  have hanc : ∀ {v w q r}, m.owner? q = some o → m.owner? r = some o → q ≠ r → m.Above q v → m.Above r w →
      m.isAncestor v w = false := by
    intro v w q r hq hr hne hv hw
    rw [Bool.eq_false_iff]
    intro ha
    have hknown := vertex?_isSome_of_above hw
    have hmem := (isAncestor_iff h hknown).mp ha
    rcases h.root_or_owner (vertex?_isSome_of_above hv) with rfl | ⟨p, _, hp, _, _⟩
    · exact not_above_root h q hv
    · have hpw := above_of_mem_chain h hp w hknown hmem
      exact hne (above_unique h hq hr (above_trans h ((above_iff h hp q).mp hv) w hknown hpw) hw)
  refine ⟨?_, hanc hq hr hne hv hw, hanc hr hq (Ne.symm hne) hw hv⟩
  rintro rfl
  exact hne (above_unique h hq hr hv hw)

theorem not_apart_self {v : VertexId} (hv : (m.vertex? v).isSome) : ¬ m.Apart v v := fun ha => by
  rw [Apart, isAncestor_refl h hv] at ha; exact absurd ha.1 (by simp)

end

end Model

namespace Eval

open Model

variable {m : Model μ δ} {plainly : RegionId → Bool} {c : Context σ} {k : Nat}

/-! ## Counting -/

def Counted (m : Model μ δ) (Q : List VertexId → List VertexId → Prop) (run : Run μ δ σ) : Prop :=
  m.Fits false run.inst ∧ Q (run.events.filterMap Event.asked?) (run.events.filterMap m.answered?)

variable {Q Q' : List VertexId → List VertexId → Prop}

theorem Counted.imp {run : Run μ δ σ} (hr : Counted m Q run) (hQ : ∀ a b, Q a b → Q' a b) : Counted m Q' run :=
  ⟨hr.1, hQ _ _ hr.2⟩

theorem unasked {event : Event μ δ} (he : Admitted m (fun trigger => ¬ trigger.IsMessage) event) :
    event.asked? = none ∧ m.answered? event = none := by
  cases event with
  | offered v trigger =>
    cases trigger with
    | message _ => exact absurd trivial he
    | _ => exact ⟨rfl, rfl⟩
  | fired t trigger i =>
    cases trigger with
    | message _ =>
      obtain ⟨record, hrec, hs⟩ := he
      have hs : m.isState record.source = false := Bool.eq_false_iff.mpr fun hs' => hs hs' trivial
      exact ⟨rfl, by simp [answered?, source?, hrec, hs]⟩
    | _ => exact ⟨rfl, rfl⟩
  | _ => exact ⟨rfl, rfl⟩

theorem durable_counted (Q : List VertexId → List VertexId → Prop) :
    Durable m Action.KeepsRecords (fun _ => True) (fun trigger => ¬ trigger.IsMessage)
      (Counted m Q : Run μ δ σ → Prop) :=
  durable_fits.noting (Q := fun events => Q (events.filterMap Event.asked?) (events.filterMap m.answered?))
    fun event events he hq => by simpa [List.filterMap_cons, unasked he] using hq

/-- Since `A` and `B` were asked and have answered, only members of `S` have been asked and have answered. -/
def Tallied (m : Model μ δ) (S : VertexId → Prop) (A B a b : List VertexId) : Prop :=
  ∃ a' b', a = a' ++ A ∧ b = b' ++ B ∧ m.Once S a' b'

variable {S S' : VertexId → Prop} {A B a b : List VertexId}

theorem tallied_refl (S : VertexId → Prop) (A B : List VertexId) : Tallied m S A B A B :=
  ⟨[], [], rfl, rfl, once_nil S⟩

theorem Tallied.mono (ht : Tallied m S A B a b) (hS : ∀ v, S v → S' v) : Tallied m S' A B a b := by
  obtain ⟨a', b', ha, hb, ho⟩ := ht
  exact ⟨a', b', ha, hb, ho.mono hS⟩

theorem Tallied.trans {A' B' : List VertexId} (ht : Tallied m S A B A' B') (ht' : Tallied m S' A' B' a b)
    (hapart : ∀ v w, S' v → S w → v ≠ w ∧ m.Apart v w) : Tallied m (fun v => S v ∨ S' v) A B a b := by
  obtain ⟨a₁, b₁, rfl, rfl, h₁⟩ := ht
  obtain ⟨a₂, b₂, ha, hb, h₂⟩ := ht'
  refine ⟨a₂ ++ a₁, b₂ ++ b₁, by simp [ha], by simp [hb], h₁.append h₂ (fun v w hv hw => (hapart v w hv hw).1) ?_⟩
  exact fun v w hv hw => (hapart v w hv hw).2

/-! ## The way of a message inwards -/

section
variable (h : m.Arena)
include h

-- A state is asked before all beneath it, and answers only when none of these has.
theorem Tallied.own {v : VertexId} (ht : Tallied m (m.InOne (m.regionsOf v)) (v :: A) B a b)
    (hv : (m.vertex? v).isSome) : Tallied m (m.isAncestor v · = true) A B a b := by
  obtain ⟨a', b', rfl, rfl, ho⟩ := ht
  have hin : ∀ w, m.InOne (m.regionsOf v) w → m.isAncestor v w = true := fun w ⟨q, hq, hqw⟩ =>
    isAncestor_of_above h (h.mem_regionsOf.mp hq) hqw
  have hnot : ∀ w, m.InOne (m.regionsOf v) w → w ≠ v := by
    rintro w ⟨q, hq, hqw⟩ rfl
    exact not_above_owner h (h.mem_regionsOf.mp hq) hqw
  refine ⟨a' ++ [v], b', by simp, rfl, ?_, ?_, ho.apart, fun w hw => hin w (ho.answered_mem w hw)⟩
  · refine List.nodup_append.mpr ⟨ho.nodup, by simp, fun w hw u hu => ?_⟩
    rw [List.mem_singleton] at hu
    exact hu ▸ hnot w (ho.asked_mem w hw)
  · intro w hw
    rcases List.mem_append.mp hw with hw | hw
    · exact hin w (ho.asked_mem w hw)
    · obtain rfl := List.mem_singleton.mp hw
      exact isAncestor_refl h hv

theorem Tallied.answer {v : VertexId} (ht : Tallied m (m.InOne (m.regionsOf v)) (v :: A) B a B)
    (hv : (m.vertex? v).isSome) : Tallied m (m.isAncestor v · = true) A B a (v :: B) := by
  obtain ⟨a', b', ha, hb, ho⟩ := ht.own h hv
  exact ⟨a', [v], ha, rfl, ho.nodup, ho.asked_mem, by simp, by simpa using isAncestor_refl h hv⟩

theorem Tallied.others {o : VertexId} {r : RegionId} {rest : List RegionId} {A' B' : List VertexId}
    (ht : Tallied m (m.Above r) A B A' B') (ht' : Tallied m (m.InOne rest) A' B' a b) (hr : m.owner? r = some o)
    (hrest : ∀ q ∈ rest, m.owner? q = some o) (hnot : r ∉ rest) : Tallied m (m.InOne (r :: rest)) A B a b := by
  refine (ht.trans ht' fun v w ⟨q, hq, hqv⟩ hw => ?_).mono ?_
  · exact apart_of_above h (hrest q hq) hr (fun heq => hnot (heq ▸ hq)) hqv hw
  · rintro v (hv | ⟨q, hq, hqv⟩)
    · exact ⟨r, by simp, hv⟩
    · exact ⟨q, List.mem_cons_of_mem r hq, hqv⟩

end

def Asks (m : Model μ δ) (plainly : RegionId → Bool) (c : Context σ) (x : μ) (k : Nat) : Prop :=
  ∀ v A B, Triple (Counted m fun a b => a = A ∧ b = B) (offer m (m.compileWith plainly) c k (.message x) v)
    (fun consumed => Counted m fun a b => Tallied m (m.isAncestor v · = true) A B a b ∧ (consumed = false → b = B))
    fun _ => (Counted m (Tallied m (m.isAncestor v · = true) A B) : Run μ δ σ → Prop)

def AsksBeneath (m : Model μ δ) (plainly : RegionId → Bool) (c : Context σ) (x : μ) (k : Nat) : Prop :=
  ∀ v rs A B, rs.Nodup → (∀ r ∈ rs, m.owner? r = some v) →
    Triple (Counted m fun a b => a = A ∧ b = B) (offerBeneath m (m.compileWith plainly) c k (.message x) v rs)
      (fun consumed => Counted m fun a b => Tallied m (m.InOne rs) A B a b ∧ (consumed = false → b = B))
      fun _ => (Counted m (Tallied m (m.InOne rs) A B) : Run μ δ σ → Prop)

section
variable (h : m.Arena) (hA : m.Acts Action.KeepsRecords) {x : μ}
include h

include hA in
theorem asks (hB : ∀ j < k, AsksBeneath m plainly c x j) : Asks m plainly c x k := by
  intro v A B
  have hlasts : ∀ j, Lasts m plainly c Action.KeepsRecords (fun _ => True) (fun trigger => ¬ trigger.IsMessage)
      (Counted m (Tallied m (m.isAncestor v · = true) A B) : Run μ δ σ → Prop) j :=
    (durable_counted _).lasts h hA fun _ => id
  have hstart : ∀ run : Run μ δ σ, Counted m (fun a b => a = A ∧ b = B) run →
      Counted m (Tallied m (m.isAncestor v · = true) A B) run := fun run hr =>
    hr.imp fun a b ⟨ha, hb⟩ => ha ▸ hb ▸ tallied_refl _ _ _
  have hown : ∀ run : Run μ δ σ, m.isState v = true →
      Counted m (Tallied m (m.InOne (m.regionsOf v)) (v :: A) B) run →
      Counted m (Tallied m (m.isAncestor v · = true) A B) run := fun run hs hr =>
    hr.imp fun a b ht => ht.own h (vertex?_isSome_of_isState hs)
  refine triple_offer (T := Counted m fun a b => a = v :: A ∧ b = B)
    (Y := Counted m (Tallied m (m.isAncestor v · = true) A B))
    (N := Counted m fun a b => Tallied m (m.InOne (m.regionsOf v)) (v :: A) B a b ∧ b = B ∧ m.isState v = true)
    hstart (fun run hr => ?_) (fun run hr _ => hstart run hr) (fun run hr _ => ?_)
    (fun _ ht => by cases ht) (fun hs _ j hj => ?_) (fun _ j _ => ?_) (fun run hr _ => ?_) (fun hs t j _ => ?_)
    fun hs count _ => ?_
  · refine ⟨hr.1, ?_, ?_⟩
    · simp [Event.asked?, hr.2.1]
    · simp [List.filterMap_cons, answered?, hr.2.2]
  · exact hr.imp fun a b ⟨ha, hb⟩ => ⟨ha ▸ hb ▸ tallied_refl _ _ _, fun _ => hb⟩
  · refine (hB j hj v (m.regionsOf v) (v :: A) B (h.nodup_regionsOf v) fun r hr => h.mem_regionsOf.mp hr).conseq
      (fun _ hr => hr.1) (fun consumed run hr => ?_) fun _ run hr => hown run hs hr
    cases consumed with
    | true => exact hown run hs (hr.imp fun a b => And.left)
    | false => exact ⟨hr.1, hr.2.1, hr.2.2 rfl, hs⟩
  · exact ((hlasts j).complete v trivial).post fun _ run hr => hr.imp fun a b ht => ⟨ht, fun hf => by cases hf⟩
  · exact hr.imp fun a b ⟨ht, hb, hs⟩ => ⟨ht.own h (vertex?_isSome_of_isState hs), fun _ => hb⟩
  · refine Triple.assume fun run ⟨hr, henabled⟩ => ?_
    obtain ⟨record, hrec, hsource, _⟩ := source_of_enabled h (henabled ▸ List.mem_singleton_self t)
    -- The traversal itself asks no one, so the account that stands when it begins is the one that remains.
    have hnote : Counted m (Tallied m (m.isAncestor v · = true) A B) (run.note (.fired t (.message x) run.inst)) := by
      obtain ⟨hfits, ht, hb, _⟩ := hr
      refine ⟨hfits, ?_⟩
      have hanswer := answered?_fired (x := x) (i := run.inst) hrec (hsource ▸ hs)
      rw [hsource] at hanswer
      rw [hb] at ht
      simpa [List.filterMap_cons, Event.asked?, hanswer, hb] using ht.answer h (vertex?_isSome_of_isState hs)
    refine ((durable_counted _).fire h hA (fun _ => id) hrec (S := (· = run)) (fun _ heq => heq ▸ hnote) j).conseq
      (fun _ hr => hr) (fun _ _ hr => hr.imp fun a b ht => ⟨ht, fun hf => by cases hf⟩) fun _ run' hr' => ?_
    rcases hr' with rfl | hr'
    · exact hown run' hs (hr.imp fun a b => And.left)
    · exact hr'
  · have haloof := (durable_counted (m := m) (δ := δ) (σ := σ) fun a b =>
      Tallied m (m.InOne (m.regionsOf v)) (v :: A) B a b ∧ b = B ∧ m.isState v = true).aloof
    refine (triple_report haloof fun _ hr => hown _ hs (hr.imp fun a b => And.left)).conseq (fun _ hr => hr.1)
      (fun _ run hr => ?_) fun _ _ hr => hr
    exact hr.1.imp fun a b ⟨ht, hb, _⟩ => ⟨ht.own h (vertex?_isSome_of_isState hs), fun _ => hb⟩

theorem asksBeneath (hO : ∀ j < k, Asks m plainly c x j) (hB : ∀ j < k, AsksBeneath m plainly c x j) :
    AsksBeneath m plainly c x k := by
  intro v rs A B hnodup hrs
  cases rs with
  | nil => cases k <;> exact Triple.pure fun _ hr => hr.imp fun a b ⟨ha, hb⟩ =>
      ⟨ha ▸ hb ▸ tallied_refl _ _ _, fun _ => hb⟩
  | cons r rest =>
    obtain ⟨hnot, hrest⟩ := List.nodup_cons.mp hnodup
    have howner := hrs r (by simp)
    have howned : ∀ q ∈ rest, m.owner? q = some v := fun q hq => hrs q (List.mem_cons_of_mem r hq)
    have hmore : ∀ j < k, ∀ B', Triple (Counted m fun a b => Tallied m (m.Above r) A B a b ∧ b = B')
        (offerBeneath m (m.compileWith plainly) c j (.message x) v rest)
        (fun consumed => Counted m fun a b => Tallied m (m.InOne (r :: rest)) A B a b ∧ (consumed = false → b = B'))
        fun _ => (Counted m (Tallied m (m.InOne (r :: rest)) A B) : Run μ δ σ → Prop) := by
      intro j hj B'
      refine Triple.assume fun run ⟨hfits, ht, hb⟩ => ?_
      rw [hb] at ht
      refine ((hB j hj v rest _ _ hrest howned).conseq (fun _ hr => hr) (fun consumed _ hr => ?_)
        fun _ _ hr => ?_).start ⟨hfits, rfl, hb⟩
      · exact hr.imp fun a b ⟨ht', hb'⟩ => ⟨ht.others h ht' howner howned hnot, hb'⟩
      · exact hr.imp fun a b ht' => ht.others h ht' howner howned hnot
    refine triple_offerBeneath (Y := Counted m (Tallied m (m.Above r) A B))
      (N := Counted m fun a b => Tallied m (m.Above r) A B a b ∧ b = B)
      (fun run hr => hr.imp fun a b ⟨ha, hb⟩ => ha ▸ hb ▸ tallied_refl _ _ _) (fun j hj => ?_)
      (fun current j hj => ?_) (fun j hj => hmore j hj B) (fun run hr _ => ?_) (fun run hr => ?_) fun j hj => ?_
    · exact (hmore j hj B).pre fun run hr => hr.1.imp fun a b ⟨ha, hb⟩ => ⟨ha ▸ hb ▸ tallied_refl _ _ _, hb⟩
    · refine Triple.assume fun run ⟨hr, hcurrent⟩ => ?_
      -- Whatever `r` records by now is beneath `r`, be it what it recorded when the message came or not.
      have hin := fun w (hw : m.isAncestor current w = true) => above_of_isAncestor h (hr.1 r current hcurrent).1 hw
      refine (((hO j hj current A B).conseq (fun _ hr => hr) (fun consumed _ hr => ?_) fun _ _ hr => ?_).start hr)
      · cases consumed with
        | true => exact hr.imp fun a b ⟨ht, _⟩ => ht.mono hin
        | false => exact ⟨hr.1, hr.2.1.mono hin, hr.2.2 rfl⟩
      · exact hr.imp fun a b ht => ht.mono fun w hw => ⟨r, by simp, hin w hw⟩
    · exact hr.imp fun a b ht => ht.mono fun w hw => ⟨r, by simp, hw⟩
    · exact hr.imp fun a b ht => ⟨ht.mono fun w hw => ⟨r, by simp, hw⟩, fun hf => by cases hf⟩
    · refine Triple.assume fun run ⟨hr, _⟩ => ?_
      refine ((hmore j hj (run.events.filterMap m.answered?)).post fun _ _ hr => ?_).start ⟨hr.1, hr.2, rfl⟩
      exact hr.imp fun a b ⟨ht, _⟩ => ⟨ht, fun hf => by cases hf⟩

include hA in
theorem dispatch (k : Nat) : Asks m plainly c x k ∧ AsksBeneath (σ := σ) m plainly c x k := by
  induction k using Nat.strongRecOn with
  | ind k ih => exact ⟨asks h hA fun j hj => (ih j hj).2,
      asksBeneath h (fun j hj => (ih j hj).1) fun j hj => (ih j hj).2⟩

end

theorem once_of_offer (h : m.Arena) (hA : m.Acts Action.KeepsRecords) (fuel : Nat) (x : μ) {i : Instance δ}
    (hi : m.Fits false i) {s : σ} {run : Run μ δ σ}
    (hr : run = ran (offer m m.compile c fuel (.message x) root { inst := i, outside := s })) :
    m.Once (m.isAncestor root · = true) (run.events.filterMap Event.asked?) (run.events.filterMap m.answered?) := by
  have hoffer : Triple (Counted m fun a b => a = [] ∧ b = []) (offer m m.compile c fuel (.message x) root)
      (fun _ => Counted m (Tallied m (m.isAncestor root · = true) [] [])) fun _ =>
        (Counted m (Tallied m (m.isAncestor root · = true) [] []) : Run μ δ σ → Prop) :=
    ((dispatch h hA fuel).1 root [] []).post fun _ _ hr => hr.imp fun _ _ => And.left
  obtain ⟨_, a, b, ha, hb, honce⟩ := hoffer.ran { inst := i, outside := s } ⟨hi, rfl, rfl⟩
  rw [hr, ha, hb]
  simpa using honce

end Eval

namespace Machine

variable {m : Machine μ δ}

theorem once_told (hm : m.Sound) (hk : m.Acts Action.KeepsRecords) {i : Instance δ} (hi : m.Fits false i)
    (c : Context σ) (fuel : Nat) (x : μ) (s : σ) :
    m.Once (m.isAncestor root · = true) ((m.told c fuel x i s).filterMap Event.asked?)
      ((m.told c fuel x i s).filterMap m.answered?) := by
  rcases ran_evaluate hm c fuel x i s with heq | ⟨_, heq⟩
  · rw [told, heq]
    exact Model.once_nil _
  · exact Eval.once_of_offer hm.arena hk fuel x hi heq

/-- In the course of a message no state is asked twice, none fires two transitions of its own upon it, and of two
states that do none stands above the other. -/
theorem dispatches_once (hb : m.Built) (hk : m.Acts Action.KeepsRecords) {i : Instance δ} (hi : m.Fits false i)
    (c : Context σ) (fuel : Nat) (x : μ) (s : σ) :
    ((m.told c fuel x i s).filterMap Event.asked?).Nodup ∧ ((m.told c fuel x i s).filterMap m.answered?).Nodup ∧
      ∀ v ∈ (m.told c fuel x i s).filterMap m.answered?, ∀ w ∈ (m.told c fuel x i s).filterMap m.answered?,
        m.isAncestor v w = true → v = w := by
  have honce := once_told hb.sound hk hi c fuel x s
  refine ⟨honce.nodup, honce.apart.imp_of_mem fun hv _ ha heq => ?_, fun v hv w hw hvw => ?_⟩
  · have hknown := Model.vertex?_isSome_of_isAncestor (honce.answered_mem _ hv)
    exact Model.not_apart_self hb.sound.arena hknown (heq ▸ ha)
  · by_cases hne : v = w
    · exact hne
    · have hsymm : Std.Symm m.Apart := ⟨fun _ _ ha => ha.symm⟩
      have ha := honce.apart.forall hv hw hne
      rw [ha.1] at hvw; cases hvw

/-- Two regions, and a state around them that would answer as well. -/
def desk : Machine String Unit :=
  (Machine.ofName "desk").edited [.addState (.state root) "desk", .addRegion ⟨1⟩ "lamp", .addRegion ⟨1⟩ "fan",
    .addState (.region ⟨1⟩) "dark", .addState (.region ⟨1⟩) "lit", .addState (.region ⟨2⟩) "still",
    .addState (.region ⟨2⟩) "turning", .addTransition ((Draft.between ⟨2⟩ ⟨3⟩).on "press"),
    .addTransition ((Draft.between ⟨4⟩ ⟨5⟩).on "press"), .addTransition ((Draft.inside ⟨1⟩).on "press")]

def idle : Instance Unit :=
  ((({ data := () } : Instance Unit).setCurrent ⟨0⟩ ⟨1⟩).setCurrent ⟨1⟩ ⟨2⟩).setCurrent ⟨2⟩ ⟨4⟩

theorem fits_idle : desk.Fits false idle :=
  (((Model.fits_empty ()).setCurrent (by decide +kernel) (by simp)).setCurrent (by decide +kernel)
    (by simp)).setCurrent (by decide +kernel) (by simp)

theorem dispatches_once_desk :
    (desk.told Context.strict 50 "press" idle ()).filterMap Event.asked? = [⟨4⟩, ⟨2⟩, ⟨1⟩, ⟨0⟩] ∧
      (desk.told Context.strict 50 "press" idle ()).filterMap desk.answered? = [⟨4⟩, ⟨2⟩] ∧
      ((desk.told Context.strict 50 "press" idle ()).filterMap Event.asked?).Nodup ∧
      ((desk.told Context.strict 50 "press" idle ()).filterMap desk.answered?).Nodup ∧
      ∀ v ∈ (desk.told Context.strict 50 "press" idle ()).filterMap desk.answered?,
        ∀ w ∈ (desk.told Context.strict 50 "press" idle ()).filterMap desk.answered?,
          desk.isAncestor v w = true → v = w := by
  have hkeeps : desk.Acts Action.KeepsRecords :=
    acts_edited "desk" (by simp [Edit.Uses, Draft.between, Draft.inside, Draft.on, Draft.guarded])
  exact ⟨by decide +kernel, by decide +kernel,
    dispatches_once (m := desk) ((Built.ofName "desk").edited _) hkeeps fits_idle Context.strict 50 "press" ()⟩

end Machine

end Statechart
