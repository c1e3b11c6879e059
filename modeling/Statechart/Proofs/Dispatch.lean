import Statechart.Proofs.Discipline
import Statechart.Validation

/-!
# States that a message finds, and states that it brings about

A message is offered region by region, to what each region records by then. A state that answers was active when the
message came, unless its region comes after another one of the same state where an answer has led out of that region:
the state around both, or one further out, has been entered again since, and with it all that is beneath.
-/

namespace Statechart

variable {μ δ σ : Type}

namespace Model

variable {m : Model μ δ}

/-! ## What an answer may be put down to -/

/-- Since a state in `q` has answered, `o` or a vertex around it has been entered. -/
def Reentered (m : Model μ δ) (o : VertexId) (q : RegionId) (events : List (Event μ δ)) : Prop :=
  ∃ a ∈ m.chain o, ∃ earlier, .entered (.vertex a) :: earlier <:+ events ∧
    ∃ w ∈ earlier.filterMap m.answered?, m.Above q w

/-- The vertex stands in a region that comes after another one of the same state, and since a state there has answered
the state around both, or one further out, has been entered again. -/
def Excused (m : Model μ δ) (v : VertexId) (events : List (Event μ δ)) : Prop :=
  ∃ o q q', [q', q].Sublist (m.regionsOf o) ∧ m.Above q v ∧ m.Reentered o q' events

def Explained (m : Model μ δ) (i : Instance δ) (events : List (Event μ δ)) : Prop :=
  ∀ event earlier v, event :: earlier <:+ events → m.answered? event = some v →
    m.isActive i v = true ∨ m.Excused v earlier

theorem Reentered.cons {o : VertexId} {q : RegionId} {events : List (Event μ δ)} (event : Event μ δ)
    (hr : m.Reentered o q events) : m.Reentered o q (event :: events) := by
  obtain ⟨a, ha, earlier, hsuffix, hw⟩ := hr
  exact ⟨a, ha, earlier, hsuffix.trans (List.suffix_cons event events), hw⟩

theorem Excused.cons {v : VertexId} {events : List (Event μ δ)} (event : Event μ δ) (he : m.Excused v events) :
    m.Excused v (event :: events) := by
  obtain ⟨o, q, q', hq, hv, hr⟩ := he
  exact ⟨o, q, q', hq, hv, hr.cons event⟩

theorem explained_nil (i : Instance δ) : m.Explained i [] := by
  intro event earlier v hsuffix
  simp at hsuffix

theorem Explained.cons {i : Instance δ} {event : Event μ δ} {events : List (Event μ δ)} (he : m.Explained i events)
    (hv : ∀ v, m.answered? event = some v → m.isActive i v = true ∨ m.Excused v events) :
    m.Explained i (event :: events) := by
  intro event' earlier v hsuffix ha
  rcases List.suffix_cons_iff.mp hsuffix with heq | hsuffix
  · cases heq; exact hv v ha
  · exact he event' earlier v hsuffix ha

/-! ## Aside from a region -/

def Unchanged (m : Model μ δ) (q : RegionId) (i i' : Instance δ) : Prop :=
  ∀ r, m.Encloses q r → i'.current? r = i.current? r

def Aside (m : Model μ δ) (q : RegionId) (v : VertexId) : Prop :=
  ¬ m.Above q v ∧ ∀ o, m.owner? q = some o → v ∉ m.chain o

section
variable (h : m.Arena)
include h

theorem Excused.beneath {v w : VertexId} {r : RegionId} {events : List (Event μ δ)} (he : m.Excused v events)
    (hr : m.owner? r = some v) (hw : m.Above r w) : m.Excused w events := by
  obtain ⟨o, q, q', hq, hv, hre⟩ := he
  exact ⟨o, q, q', hq, above_trans h (Or.inr ⟨v, hr, hv⟩) w (vertex?_isSome_of_above hw) hw, hre⟩

theorem hereditary_aside (q : RegionId) : m.Hereditary (m.Aside q) := by
  intro v r o hv ho ⟨hnot, hchain⟩
  refine ⟨fun ha => ?_, fun o' ho' hmem => ?_⟩
  · rcases (above_iff h hv q).mp ha with rfl | ⟨o', ho', hq⟩
    · exact hchain o ho (mem_chain_self h o (vertex?_isSome_of_isState (h.isState_of_owner? ho)))
    · rw [ho] at ho'; cases ho'; exact hnot hq
  · have hknown := vertex?_isSome_of_isState (h.isState_of_owner? ho')
    refine hchain o' ho' ?_
    rw [chain_append_below h hknown hmem, chain_eq h hv ho]
    have := mem_chain_self h o (vertex?_isSome_of_isState (h.isState_of_owner? ho))
    simp [this]

theorem aside_of_above {o v : VertexId} {q q' : RegionId} (hq : m.owner? q = some o) (hq' : m.owner? q' = some o)
    (hne : q' ≠ q) (hv : m.Above q' v) : m.Aside q v := by
  refine ⟨fun ha => hne (above_unique h hq' hq hv ha), fun o' ho' hmem => ?_⟩
  rw [hq] at ho'; cases ho'
  exact not_above_owner h hq' (above_of_ancestor h (vertex?_isSome_of_isState (h.isState_of_owner? hq)) hmem hv)

theorem aside_of_leads {v e : VertexId} {q : RegionId} (hv : m.Aside q v) (hl : m.Leads v e) :
    m.Aside q e ∨ ∃ o, m.owner? q = some o ∧ e ∈ m.chain o := by
  have hnot : ¬ m.Above q e := by
    intro he
    have hknown := vertex?_isSome_of_above he
    rcases hl with ⟨_, hmem⟩ | ⟨d, hd, hp⟩
    · -- The chain of `e` leads by way of `v`, and by way of the state around `q` to a vertex of `q`.
      obtain ⟨o, w, rest, ho, hw, hchain⟩ := exists_chain_of_above h e hknown he
      have hvknown := vertex?_isSome_of_mem_chain h e hknown hmem
      rw [hchain] at hmem
      obtain ⟨l, l', hl⟩ := List.append_of_mem ((List.mem_append.mp hmem).resolve_left (hv.2 o ho))
      rw [hl, ← List.append_assoc] at hchain
      refine hv.1 (above_of_mem_chain h hw v hvknown ?_)
      rw [chain_of_append h hknown hchain]
      cases l with
      | nil => cases hl; simp
      | cons _ l => cases hl; simp
    · have hqd := above_of_parent_eq h hp.symm he
      refine hv.1 (above_of_ancestor h ?_ hd hqd)
      simp only [chain, List.mem_cons, List.mem_map] at hd
      rcases hd with rfl | ⟨⟨r, d⟩, hm, rfl⟩
      · exact absurd hqd (not_above_root h q)
      · exact vertex?_isSome_of_above (List.mem_map_of_mem hm)
  by_cases hchain : ∃ o, m.owner? q = some o ∧ e ∈ m.chain o
  · exact Or.inr hchain
  · exact Or.inl ⟨hnot, fun o ho hmem => hchain ⟨o, ho, hmem⟩⟩

end

end Model

namespace Eval

open Model

variable {m : Model μ δ} {plainly : RegionId → Bool} {c : Context σ} {O : Trigger μ → Prop} {k : Nat}
variable {i : Instance δ} {x : μ} {o : VertexId} {q q' : RegionId}

/-! ## What happens aside from a region -/

def Spared (m : Model μ δ) (q : RegionId) (i : Instance δ) (run : Run μ δ σ) : Prop :=
  m.Fits false run.inst ∧ m.Unchanged q i run.inst

theorem durable_spared (h : m.Arena) :
    Durable m Action.KeepsRecords (m.Aside q) O (Spared m q i : Run μ δ σ → Prop) where
  enter _ _ _ _ hr := hr
  leave _ _ _ hr := hr
  act run action trigger _ ha hr := by
    refine ⟨hr.1.congr (ha trigger run.inst), fun r hqr => ?_⟩
    rw [← hr.2 r hqr]
    simp [Instance.current?, Run.update, ha trigger run.inst]
  record run r v hp hs hv hr := by
    refine ⟨hr.1.setCurrent hp (by simp), fun r' hqr => ?_⟩
    have hne : r ≠ r' := by
      rintro rfl
      exact hv.1 ((above_iff h hp q).mpr hqr)
    rw [← hr.2 r' hqr]
    simp [Instance.current?_setCurrent, hne]
  terminate _ hr := ⟨hr.1.congr rfl, hr.2⟩
  arrived _ _ hr := hr
  offered _ _ _ _ _ hr := hr
  fired _ _ _ _ _ _ _ hr := hr
  aloof _ _ _ _ hr := hr
  current run r v hr hrun hv := hr v (hrun.1 r v hv).1

def Struck (m : Model μ δ) (q' q : RegionId) (i : Instance δ) (run : Run μ δ σ) : Prop :=
  Spared m q i run ∧ ∃ w ∈ run.events.filterMap m.answered?, m.Above q' w

def Renewed (m : Model μ δ) (o : VertexId) (q' : RegionId) (run : Run μ δ σ) : Prop :=
  m.Fits false run.inst ∧ m.Reentered o q' run.events

theorem durable_struck (h : m.Arena) :
    Durable m Action.KeepsRecords (m.Aside q) O (Struck m q' q i : Run μ δ σ → Prop) :=
  (durable_spared h).noting (Q := fun events => ∃ w ∈ events.filterMap m.answered?, m.Above q' w)
    fun event events _ ⟨w, hw, ha⟩ => ⟨w, by
      cases he : m.answered? event <;> simp [he, hw], ha⟩

theorem durable_renewed : Durable m Action.KeepsRecords (fun _ => True) O (Renewed m o q' : Run μ δ σ → Prop) :=
  durable_fits.noting (Q := m.Reentered o q') fun event _ _ => Reentered.cons event

section
variable (h : m.Arena) (hA : m.Acts Action.KeepsRecords) (hq : m.owner? q = some o)
include h hq

theorem gate_struck {v e : VertexId} (hv : m.Aside q v) (hl : m.Leads v e) : m.Aside q e ∨
    ∀ (run : Run μ δ σ) (s : σ), Struck m q' q i run →
      Renewed m o q' { run.note (.entered (.vertex e)) with outside := s } := by
  refine (aside_of_leads h hv hl).imp id fun ⟨o', ho', he⟩ run s hr => ?_
  rw [hq] at ho'; cases ho'
  exact ⟨hr.1.1, e, he, run.events, List.suffix_rfl, hr.2⟩

include hA

theorem lasts_struck (k : Nat) : Lasts m plainly c Action.KeepsRecords (m.Aside q) (fun _ => True)
    (Zoned (m.Aside q) (Struck m q' q i) (Renewed m o q') : Run μ δ σ → Prop) k :=
  lasts_zoned h hA (hereditary_aside h q) (fun _ => trivial) (durable_struck h) durable_renewed
    (fun _ _ => gate_struck h hq) (durable_renewed.lasts h hA fun _ => trivial) k

theorem fire_struck {t : TransitionId} {record : Transition μ δ} (hrec : m.transition? t = some record)
    (hsource : m.Aside q record.source) {trigger : Trigger μ} {run : Run μ δ σ}
    (hnote : Inside (m.Aside q) (Struck m q' q i) (run.note (.fired t trigger run.inst))) (k : Nat) :
    Triple (· = run) (traverse m (m.compileWith plainly) c k { trigger } t)
      (fun _ => Zoned (m.Aside q) (Struck m q' q i) (Renewed m o q')) fun _ _ => True :=
  (zoned_fire h hA (hereditary_aside h q) (durable_struck h) durable_renewed (fun _ _ => gate_struck h hq)
    (durable_renewed.lasts h hA fun _ => trivial) (fun j _ => lasts_struck h hA hq j) hrec hsource
    fun _ heq => heq ▸ hnote).halts fun _ _ _ => trivial

end

/-! ## Between traversals -/

def AtRest (run : Run μ δ σ) : Prop := run.arrived = []

structure ComesToRest (m : Model μ δ) (p : Program μ δ) (c : Context σ) (k : Nat) : Prop where
  traverse : ∀ trigger t, Triple AtRest (traverse m p c k { trigger } t) (fun _ => AtRest) fun _ _ => True
  completeAll : ∀ l, Triple AtRest (completeAll m p c k l) (fun _ => AtRest) fun _ _ => True
  complete : ∀ v, Triple AtRest (complete m p c k v) (fun _ => AtRest) fun _ _ => True
  offer : ∀ trigger v, Triple AtRest (offer m p c k trigger v) (fun _ => AtRest) fun _ _ => True

theorem comesToRest {p : Program μ δ} (k : Nat) : ComesToRest m p c k := by
  induction k using Nat.strongRecOn with
  | ind k ih =>
  have haloof : Aloof (AtRest : Run μ δ σ → Prop) := fun _ _ _ _ hr => hr
  refine ⟨fun trigger t => ?_, fun l => ?_, fun v => ?_, fun trigger v => ?_⟩
  · refine triple_traverse (R := fun _ => True) (fun _ _ => trivial) (fun _ _ => ?_) (fun hn => by cases hn)
      fun _ l j hj => ((ih j hj).completeAll l).pre fun _ hr => hr.1
    exact Triple.trivial.pre fun _ _ => trivial
  · exact triple_completeAll (I := fun _ => AtRest) (fun _ _ => trivial) fun v _ j hj => (ih j hj).complete v
  · exact triple_complete (fun _ _ => trivial) (fun _ _ _ => trivial) (fun _ _ _ => trivial) (fun _ hr _ => hr)
      fun j hj => ((ih j hj).offer _ v).pre fun _ hr => hr.1
  · exact triple_offer_keeps (fun _ _ => trivial) (fun _ _ _ => trivial) (fun _ hr => hr) (fun _ _ _ => trivial)
      (fun _ _ current j hj => ((ih j hj).offer trigger current).pre fun _ hr => hr.1)
      (fun j hj => (ih j hj).complete v) (fun t j hj => ((ih j hj).traverse trigger t).pre fun _ hr => hr.1)
      fun error => (triple_report haloof fun _ _ => trivial).post fun _ _ hr => hr.1

/-! ## A message to the region next to it -/

def Passed (m : Model μ δ) (o : VertexId) (q' q : RegionId) (i : Instance δ) (consumed : Bool) (run : Run μ δ σ) :
    Prop :=
  if consumed then Zoned (m.Aside q) (Struck m q' q i) (Renewed m o q') run else Spared m q i run ∧ AtRest run

def Passes (m : Model μ δ) (plainly : RegionId → Bool) (c : Context σ) (o : VertexId) (q' q : RegionId)
    (i : Instance δ) (x : μ) (k : Nat) : Prop :=
  ∀ v, m.Above q' v → Triple (fun run => Spared m q i run ∧ AtRest run)
    (offer m (m.compileWith plainly) c k (.message x) v) (Passed m o q' q i) fun _ _ => True

def PassesBeneath (m : Model μ δ) (plainly : RegionId → Bool) (c : Context σ) (o : VertexId) (q' q : RegionId)
    (i : Instance δ) (x : μ) (k : Nat) : Prop :=
  ∀ v rs, m.Above q' v → (∀ r ∈ rs, m.owner? r = some v) → Triple (fun run => Spared m q i run ∧ AtRest run)
    (offerBeneath m (m.compileWith plainly) c k (.message x) v rs) (Passed m o q' q i) fun _ _ => True

theorem patient_spared : Patient c fun run : Run μ δ σ => Spared m q i run ∧ AtRest run :=
  ⟨fun _ _ _ hr => hr, fun _ _ hr => hr⟩

section
variable (h : m.Arena) (hA : m.Acts Action.KeepsRecords) (hq : m.owner? q = some o) (hq' : m.owner? q' = some o)
variable (hne : q' ≠ q)
include h hA hq hq' hne

theorem passes (hB : ∀ j < k, PassesBeneath m plainly c o q' q i x j) : Passes m plainly c o q' q (σ := σ) i x k := by
  intro v hv
  have haside := aside_of_above h hq hq' hne hv
  refine triple_offer (T := fun run => Spared m q i run ∧ AtRest run)
    (Y := Zoned (m.Aside q) (Struck m q' q i) (Renewed m o q')) (N := fun run => Spared m q i run ∧ AtRest run)
    (fun _ _ => trivial) (fun _ hr => hr) (fun _ _ _ => trivial) (fun _ hr _ => hr) (fun _ ht => by cases ht)
    (fun _ _ j hj => ?_) (fun _ j _ => ?_) (fun _ hr _ => hr) (fun hs t j _ => ?_) fun _ count _ => ?_
  · exact (hB j hj v (m.regionsOf v) hv fun r hr => h.mem_regionsOf.mp hr).pre fun _ hr => hr.1
  · exact ((lasts_struck h hA hq j).complete v haside).halts fun _ _ _ => trivial
  · refine Triple.assume fun run ⟨⟨hr, hrest⟩, henabled⟩ => ?_
    obtain ⟨record, hrec, rfl, _⟩ := source_of_enabled h (henabled ▸ List.mem_singleton_self t)
    have hnote : Inside (m.Aside q) (Struck m q' q i) (run.note (.fired t (.message x) run.inst)) := by
      refine ⟨⟨hr, record.source, ?_, hv⟩, fun w hw => ?_⟩
      · simp [answered?_fired hrec hs]
      · rw [show (run.note (.fired t (.message x) run.inst)).arrived = [] from hrest] at hw; cases hw
    -- The source stands aside from `q`, so the traversal gets to `q` by way of `o` or not at all.
    exact fire_struck h hA hq hrec haside hnote j
  · exact (patient_spared.report _).conseq (fun _ hr => hr.1) (fun _ _ hr => hr.1) fun _ _ hr => hr

theorem passesBeneath (hO : ∀ j < k, Passes m plainly c o q' q (σ := σ) i x j)
    (hB : ∀ j < k, PassesBeneath m plainly c o q' q i x j) : PassesBeneath m plainly c o q' q (σ := σ) i x k := by
  intro v rs hv hrs
  cases rs with
  | nil => cases k <;> exact Triple.pure fun _ hr => hr
  | cons r rest =>
    have haside := aside_of_above h hq hq' hne hv
    have howned : ∀ p ∈ rest, m.owner? p = some v := fun p hp => hrs p (List.mem_cons_of_mem r hp)
    have hrest := fun j hj => hB j hj v rest hv howned
    refine triple_offerBeneath (Y := Zoned (m.Aside q) (Struck m q' q i) (Renewed m o q'))
      (N := fun run => Spared m q i run ∧ AtRest run) (fun _ _ => trivial)
      (fun j hj => (hrest j hj).pre fun _ hr => hr.1) (fun current j hj => ?_) hrest (fun _ _ _ => trivial)
      (fun _ hr => hr) fun j _ => ?_
    · refine Triple.assume fun run ⟨hr, hcurrent⟩ => ?_
      have hp := (hr.1.1 r current hcurrent).1
      exact (hO j hj current (above_of_owner h hp (hrs r (by simp)) hv)).start hr
    · refine ((lasts_struck h hA hq j).offerBeneath (.message x) v rest haside trivial fun p hp w hw => ?_).conseq
        (fun _ hr => hr.1) (fun _ _ hr => hr) fun _ _ _ => trivial
      exact hereditary_aside h q hw (howned p hp) haside

theorem pass (k : Nat) :
    Passes m plainly c o q' q (σ := σ) i x k ∧ PassesBeneath m plainly c o q' q (σ := σ) i x k := by
  induction k using Nat.strongRecOn with
  | ind k ih => exact ⟨passes h hA hq hq' hne fun j hj => (ih j hj).2,
      passesBeneath h hA hq hq' hne (fun j hj => (ih j hj).1) fun j hj => (ih j hj).2⟩

end

/-! ## The way of a message inwards -/

/-- What `q` records it has recorded from the start, or else the state around it has been entered again. -/
def Traced (m : Model μ δ) (i : Instance δ) (v : VertexId) (q : RegionId) (run : Run μ δ σ) : Prop :=
  m.Unchanged q i run.inst ∨ ∃ q', [q', q].Sublist (m.regionsOf v) ∧ m.Reentered v q' run.events

def Covered (m : Model μ δ) (i : Instance δ) (v : VertexId) (rs : List RegionId) (run : Run μ δ σ) : Prop :=
  m.Excused v run.events ∨ m.isActive i v = true ∧ ∀ q ∈ rs, Traced m i v q run

theorem Covered.stands {v : VertexId} {rs : List RegionId} {run : Run μ δ σ} (hc : Covered m i v rs run) :
    m.isActive i v = true ∨ m.Excused v run.events := hc.symm.imp And.left id

theorem Covered.mono {v : VertexId} {rs rs' : List RegionId} {run : Run μ δ σ} (hc : Covered m i v rs run)
    (hrs : ∀ q ∈ rs', q ∈ rs) : Covered m i v rs' run :=
  hc.imp id fun ⟨ha, ht⟩ => ⟨ha, fun q hq => ht q (hrs q hq)⟩

theorem Covered.note {v : VertexId} {rs : List RegionId} {run : Run μ δ σ} (hc : Covered m i v rs run)
    (event : Event μ δ) (s : σ) : Covered m i v rs { run.note event with outside := s } :=
  hc.imp (Excused.cons event) fun ⟨ha, ht⟩ => ⟨ha, fun q hq => (ht q hq).imp id
    fun ⟨q', hsub, hr⟩ => ⟨q', hsub, hr.cons event⟩⟩

theorem patient_covered (m : Model μ δ) (i : Instance δ) (v : VertexId) (rs : List RegionId) :
    Patient c (Covered m i v rs : Run μ δ σ → Prop) :=
  ⟨fun run _ _ hr => hr.note _ run.outside, fun _ _ hr => hr.note _ _⟩

theorem Covered.beneath (h : m.Arena) {v w : VertexId} {r : RegionId} {rs : List RegionId} {run : Run μ δ σ}
    (hc : Covered m i v rs run) (hr : r ∈ rs) (howner : m.owner? r = some v) (hw : run.inst.current? r = some w)
    (hp : m.parent? w = some r) : Covered m i w (m.regionsOf w) run := by
  have habove := above_parent h hp
  rcases hc with hexcused | ⟨ha, ht⟩
  · exact Or.inl (hexcused.beneath h howner habove)
  · rcases ht r hr with hsame | ⟨q', hsub, hre⟩
    · refine Or.inr ⟨(isActive_step h hp howner).mpr ⟨?_, ha⟩, fun q hq => Or.inl fun r' hr' => hsame r' ?_⟩
      · rw [← hsame r (encloses_refl r)]; exact hw
      · exact encloses_trans h (Or.inr ⟨w, h.mem_regionsOf.mp hq, habove⟩) hr'
    · exact Or.inl ⟨v, r, q', hsub, habove, hre⟩

def Accounted (m : Model μ δ) (i : Instance δ) (run : Run μ δ σ) : Prop :=
  (m.Fits false run.inst ∧ m.Explained i run.events) ∧ AtRest run

theorem Accounted.explained {run : Run μ δ σ} (hr : Accounted m i run) : m.Explained i run.events := hr.1.2

theorem durable_explained : Durable m Action.KeepsRecords (fun _ => True) (fun trigger => ¬ trigger.IsMessage)
    fun run : Run μ δ σ => m.Fits false run.inst ∧ m.Explained i run.events :=
  durable_fits.noting fun event events he hr => hr.cons fun v hv => by rw [(unasked he).2] at hv; cases hv

section
variable (h : m.Arena) (hA : m.Acts Action.KeepsRecords)
include h hA

theorem triple_excused {Q : List (Event μ δ) → Prop} (hQ : ∀ event events, Q events → Q (event :: events))
    (trigger : Trigger μ) (w : VertexId) (k : Nat) :
    Triple (fun run : Run μ δ σ => m.Fits false run.inst ∧ Q run.events)
      (offer m (m.compileWith plainly) c k trigger w) (fun _ run => Q run.events) fun _ _ => True := by
  have hdurable : Durable m Action.KeepsRecords (fun _ => True) (fun _ => True)
      fun run : Run μ δ σ => m.Fits false run.inst ∧ Q run.events :=
    durable_fits.noting fun event events _ => hQ event events
  exact ((hdurable.lasts h hA (fun _ => trivial) k).offer trigger w trivial trivial).conseq (fun _ hr => hr)
    (fun _ _ hr => hr.2) fun _ _ _ => trivial

theorem triple_traced {v w : VertexId} {r q : RegionId} (hrq : [r, q].Sublist (m.regionsOf v)) (hw : m.Above r w)
    (k : Nat) : Triple (fun run : Run μ δ σ => (m.Fits false run.inst ∧ AtRest run) ∧ Traced m i v q run)
      (offer m (m.compileWith plainly) c k (.message x) w) (fun _ => Traced m i v q) fun _ _ => True := by
  have hne : r ≠ q := by
    rintro rfl
    simpa using hrq.nodup (h.nodup_regionsOf v)
  have hr := h.mem_regionsOf.mp (hrq.subset (by simp : r ∈ [r, q]))
  have hq := h.mem_regionsOf.mp (hrq.subset (by simp : q ∈ [r, q]))
  refine Triple.pre (Triple.or ?_ ?_) fun run ⟨⟨hfits, hrest⟩, htraced⟩ =>
    htraced.imp (fun hsame => show (Spared m q i run ∧ AtRest run) from ⟨⟨hfits, hsame⟩, hrest⟩)
      fun hre => show m.Fits false run.inst ∧ _ from ⟨hfits, hre⟩
  · refine ((pass h hA hq hr hne k).1 w hw).post fun consumed run hr => ?_
    cases consumed with
    | false => exact Or.inl hr.1.2
    | true => exact hr.symm.imp (fun hr => hr.1.1.2) fun hr => ⟨r, hrq, hr.2⟩
  · refine (triple_excused h hA (Q := fun events => ∃ q', [q', q].Sublist (m.regionsOf v) ∧ m.Reentered v q' events)
      (fun event _ ⟨q', hsub, hre⟩ => ⟨q', hsub, hre.cons event⟩) (.message x) w k).post fun _ _ => Or.inr

theorem triple_covered {v w : VertexId} {r : RegionId} {rest : List RegionId}
    (hrs : (r :: rest).Sublist (m.regionsOf v)) (hw : m.Above r w) (k : Nat) :
    Triple (fun run : Run μ δ σ => (m.Fits false run.inst ∧ AtRest run) ∧ Covered m i v rest run)
      (offer m (m.compileWith plainly) c k (.message x) w) (fun _ => Covered m i v rest) fun _ _ => True := by
  refine Triple.assume fun run ⟨hr, hcovered⟩ => ?_
  rcases hcovered with hexcused | ⟨ha, ht⟩
  · exact ((triple_excused h hA (fun event _ => Excused.cons event) (.message x) w k).post fun _ _ => Or.inl).start
      ⟨hr.1, hexcused⟩
  · -- One later region may have been entered again and another not, so each has a claim of its own on the run.
    have hall : Triple (· = run) (offer m (m.compileWith plainly) c k (.message x) w)
        (fun _ run' => ∀ q : { q // q ∈ rest }, Traced m i v q run') fun _ _ => ∀ _ : { q // q ∈ rest }, True :=
      Triple.all fun ⟨q, hq⟩ =>
        (triple_traced h hA ((List.singleton_sublist.mpr hq).cons_cons r |>.trans hrs) hw k).start ⟨hr, ht q hq⟩
    exact hall.conseq (fun _ hr => hr) (fun _ run' hr => Or.inr ⟨ha, fun q hq => hr ⟨q, hq⟩⟩) fun _ _ _ => trivial

end

def Accounts (m : Model μ δ) (plainly : RegionId → Bool) (c : Context σ) (i : Instance δ) (x : μ) (k : Nat) : Prop :=
  ∀ v, Triple (fun run => Accounted m i run ∧ Covered m i v (m.regionsOf v) run)
    (offer m (m.compileWith plainly) c k (.message x) v) (fun _ => Accounted m i)
    fun _ run => m.Explained i run.events

def AccountsBeneath (m : Model μ δ) (plainly : RegionId → Bool) (c : Context σ) (i : Instance δ) (x : μ) (k : Nat) :
    Prop :=
  ∀ v rs, rs.Sublist (m.regionsOf v) → Triple (fun run => Accounted m i run ∧ Covered m i v rs run)
    (offerBeneath m (m.compileWith plainly) c k (.message x) v rs) (fun _ => Accounted m i)
    fun _ run => m.Explained i run.events

theorem aloof_accounted : Aloof (Accounted m i : Run μ δ σ → Prop) :=
  fun run event s he hr => ⟨durable_explained.aloof run event s he hr.1, hr.2⟩

section
variable (h : m.Arena) (hA : m.Acts Action.KeepsRecords)
include h hA

theorem accounts (hB : ∀ j < k, AccountsBeneath m plainly c i x j) : Accounts m plainly c (σ := σ) i x k := by
  intro v
  have hlasts : ∀ j, Lasts m plainly c Action.KeepsRecords (fun _ => True) (fun trigger => ¬ trigger.IsMessage)
      (fun run : Run μ δ σ => m.Fits false run.inst ∧ m.Explained i run.events) j :=
    durable_explained.lasts h hA fun _ => id
  refine triple_offer (T := fun run => Accounted m i run ∧ Covered m i v (m.regionsOf v) run) (Y := Accounted m i)
    (N := fun run => Accounted m i run ∧ Covered m i v (m.regionsOf v) run) (fun _ hr => hr.1.explained)
    (fun run hr => ?_) (fun _ hr _ => hr.1.explained) (fun _ hr _ => hr.1) (fun _ ht => by cases ht)
    (fun _ _ j hj => ?_) (fun _ j _ => ?_) (fun _ hr _ => hr.1) (fun hs t j _ => ?_) fun _ count _ => ?_
  · exact ⟨⟨⟨hr.1.1.1, hr.1.1.2.cons fun v hv => by cases hv⟩, hr.1.2⟩, hr.2.note _ run.outside⟩
  · -- Where nothing beneath answers, the configuration has not changed, and so `v` is covered still.
    have hbeneath := (hB j hj v (m.regionsOf v) (List.Sublist.refl _)).and
      ((triple_of_not_consumed (patient_covered m i v (m.regionsOf v)) j).2 (.message x) v (m.regionsOf v))
    refine hbeneath.conseq (fun _ hr => ⟨hr.1, hr.1.2⟩) (fun consumed run hr => ?_) fun _ _ hr => hr.1
    cases consumed with
    | true => exact hr.1
    | false => exact ⟨hr.1, hr.2 rfl⟩
  · exact (((hlasts j).complete v trivial).and ((comesToRest j).complete v)).conseq (fun _ hr => hr) (fun _ _ hr => hr)
      fun _ _ hr => hr.1.2
  · refine Triple.assume fun run ⟨⟨hr, hcovered⟩, henabled⟩ => ?_
    obtain ⟨record, hrec, rfl, _⟩ := source_of_enabled h (henabled ▸ List.mem_singleton_self t)
    have hnote : m.Fits false run.inst ∧ m.Explained i (run.note (.fired t (.message x) run.inst)).events := by
      refine ⟨hr.1.1, hr.1.2.cons fun w hw => ?_⟩
      rw [answered?_fired hrec hs] at hw
      cases hw
      exact hcovered.stands
    refine ((durable_explained.fire h hA (fun _ => id) hrec (S := (· = run)) (fun _ heq => heq ▸ hnote) j).and
      ((comesToRest j).traverse (.message x) t)).conseq (fun _ heq => ⟨heq, heq ▸ hr.2⟩) (fun _ _ hr => hr)
      fun _ run' hr' => ?_
    rcases hr'.1 with rfl | hr'
    · exact hr.explained
    · exact hr'.2
  · exact (triple_report aloof_accounted fun _ hr => hr.explained).conseq (fun _ hr => hr.1.1)
      (fun _ _ hr => hr.1) fun _ _ hr => hr

theorem accountsBeneath (hO : ∀ j < k, Accounts m plainly c (σ := σ) i x j)
    (hB : ∀ j < k, AccountsBeneath m plainly c i x j) : AccountsBeneath m plainly c (σ := σ) i x k := by
  intro v rs hrs
  cases rs with
  | nil => cases k <;> exact Triple.pure fun _ hr => hr.1
  | cons r rest =>
    have howner : m.owner? r = some v := h.mem_regionsOf.mp (hrs.subset (by simp))
    have hmore := fun j hj => hB j hj v rest ((List.sublist_cons_self r rest).trans hrs)
    have hlater : ∀ q ∈ rest, q ∈ r :: rest := fun _ => List.mem_cons_of_mem r
    refine triple_offerBeneath (Y := fun run => Accounted m i run ∧ Covered m i v rest run)
      (N := fun run => Accounted m i run ∧ Covered m i v rest run) (fun _ hr => hr.1.explained)
      (fun j hj => (hmore j hj).pre fun _ hr => ⟨hr.1.1, hr.1.2.mono hlater⟩) (fun w j hj => ?_) hmore
      (fun _ hr _ => hr.1.explained) (fun _ hr => hr.1) fun j hj => (hmore j hj).pre fun _ hr => hr.1
    refine Triple.assume fun run ⟨⟨hr, hcovered⟩, hw⟩ => ?_
    have hp := (hr.1.1 r w hw).1
    have hbeneath := hcovered.beneath h (by simp) howner hw hp
    -- `Accounted` comes from the induction, what the later regions need from the region that was just asked.
    exact (((hO j hj w).start ⟨hr, hbeneath⟩).and ((triple_covered h hA hrs (above_parent h hp) j).start
      ⟨⟨hr.1.1, hr.2⟩, hcovered.mono hlater⟩)).either.conseq (fun _ heq => ⟨heq, heq⟩) (fun _ _ hr => hr)
      fun _ _ hr => hr.1

theorem account (k : Nat) : Accounts m plainly c (σ := σ) i x k ∧ AccountsBeneath m plainly c (σ := σ) i x k := by
  induction k using Nat.strongRecOn with
  | ind k ih => exact ⟨accounts h hA fun j hj => (ih j hj).2,
      accountsBeneath h hA (fun j hj => (ih j hj).1) fun j hj => (ih j hj).2⟩

end

end Eval

/-! ## Sessions -/

theorem Model.Session.fits {m : Model μ δ} (h : m.Arena) (hk : m.Acts Action.KeepsRecords)
    {admits : Context σ → Option Halt → Prop} {i : Instance δ} {events : List (Event μ δ)}
    (hs : m.Session admits i events) : m.Fits false i := by
  have hlasts : ∀ (c : Context σ) k, Eval.Lasts m m.isEnteredPlainly c Action.KeepsRecords (fun _ => True)
      (fun _ => True) (fun run : Run μ δ σ => m.Fits false run.inst) k :=
    fun _ => Eval.durable_fits.lasts h hk fun _ => trivial
  induction hs with
  | @initialise c fuel data s halt run hr ha =>
    rw [hr.eq_ran]
    exact (Eval.Lasts.does (fun k _ => hlasts c k) _ (within_onInitialise h hk) fuel (Nat.le_refl fuel)).ran _
      (fits_empty data)
  | @evaluate c fuel message s i events halt run hs hn hr ha ih =>
    rw [hr.eq_ran]
    exact ((hlasts c fuel).offer (.message message) root trivial trivial).ran _ ih

namespace Machine

theorem explained_told {m : Machine μ δ} (hm : m.Sound) (hk : m.Acts Action.KeepsRecords) {i : Instance δ}
    (hi : m.Fits false i) (c : Context σ) (fuel : Nat) (x : μ) (s : σ) : m.Explained i (m.told c fuel x i s) := by
  have h := hm.arena
  rcases ran_evaluate hm c fuel x i s with heq | ⟨_, heq⟩
  · rw [told, heq]
    exact Model.explained_nil i
  · rw [told, heq]
    have haccount : Triple
        (fun run => Eval.Accounted m.toModel i run ∧ Eval.Covered m.toModel i root (m.regionsOf root) run)
        (Eval.offer m.toModel m.toModel.compile c fuel (.message x) root) (fun _ run => m.Explained i run.events)
        fun _ run => m.Explained i run.events :=
      ((Eval.account h hk fuel).1 root).post fun _ _ hr => hr.explained
    refine haccount.ran _ ⟨⟨⟨hi, Model.explained_nil i⟩, rfl⟩, Or.inr ⟨Model.isActive_root h i, fun q _ => Or.inl ?_⟩⟩
    exact fun _ _ => rfl

namespace Session

variable {m m' : Machine μ δ} {admits : Context σ → Option Halt → Prop} {i : Instance δ} {past : List (Event μ δ)}

/-- A state that fires a transition of its own upon a message was active when the message came, unless it stands in a
region that comes after another one of the same state: if a state there has fired upon the message, and since then the
state around both regions, or one further out, has been entered again. -/
theorem active_or_excused (hb : m.Built) (hk : m.Acts Action.KeepsRecords) (hs : Session admits m m' i past)
    (c : Context σ) (fuel : Nat) (x : μ) (s : σ) {event : Event μ δ} {earlier : List (Event μ δ)} {v : VertexId}
    (hsuffix : event :: earlier <:+ m'.told c fuel x i s) (hv : m'.answered? event = some v) :
    m'.isActive i v = true ∨ m'.Excused v earlier := by
  obtain ⟨hmodel, hsound, hsession⟩ := hs.model hb.sound
  have hfits := hsession.fits hb.sound.arena hk
  rw [← hmodel] at hk hfits
  exact explained_told hsound hk hfits c fuel x s event earlier v hsuffix hv

/-- A state with two regions: `a` on the left, and on the right `b`, and `c` that the message leads from to `d`. -/
def sides : List (Edit String Unit) :=
  [.addState (.state root) "s", .addPseudoState (.region ⟨0⟩) "start" .initial, .addTransition (.between ⟨2⟩ ⟨1⟩),
    .addRegion ⟨1⟩ "left", .addRegion ⟨1⟩ "right", .addPseudoState (.region ⟨1⟩) "start" .initial,
    .addState (.region ⟨1⟩) "a", .addTransition (.between ⟨3⟩ ⟨4⟩), .addPseudoState (.region ⟨2⟩) "start" .initial,
    .addState (.region ⟨2⟩) "b", .addTransition (.between ⟨5⟩ ⟨6⟩), .addState (.region ⟨2⟩) "c",
    .addState (.region ⟨2⟩) "d", .addTransition ((Draft.between ⟨7⟩ ⟨8⟩).on "go")]

def crossing : Machine String Unit :=
  (ofName "m").edited (sides ++ [.addTransition ((Draft.between ⟨4⟩ ⟨7⟩).on "go")])

def started : Play String Unit := (crossing.played 50 () []).get (by decide +kernel)

theorem active_or_excused_crossing :
    crossing.Plays started ∧ ∃ event earlier,
      event :: earlier <:+ started.1.told Context.strict 50 "go" started.2.1 () ∧ started.1.answered? event = some ⟨7⟩ ∧
      started.1.isActive started.2.1 ⟨7⟩ = false ∧ started.1.Excused ⟨7⟩ earlier := by
  have hplay : crossing.Plays started := plays_of_played crossing 50 () [] (by decide +kernel)
  have hkeeps : crossing.Acts Action.KeepsRecords :=
    acts_edited "m" (by simp [sides, Edit.Uses, Draft.between, Draft.on, Draft.guarded])
  have hinactive : started.1.isActive started.2.1 ⟨7⟩ = false := by decide +kernel
  have hmem : ⟨7⟩ ∈ (started.1.told Context.strict 50 "go" started.2.1 ()).filterMap started.1.answered? := by
    decide +kernel
  obtain ⟨event, hevent, hv⟩ := List.mem_filterMap.mp hmem
  obtain ⟨later, earlier, heq⟩ := List.append_of_mem hevent
  have hexcused := active_or_excused (m := crossing) ((Built.ofName "m").edited _) hkeeps hplay Context.strict 50
    "go" () ⟨later, heq.symm⟩ hv
  exact ⟨hplay, event, earlier, ⟨later, heq.symm⟩, hv, hinactive, hexcused.resolve_left (by simp [hinactive])⟩

def switching : Machine String Unit :=
  (ofName "m").edited
    (sides ++ [.addTransition (((Draft.inside ⟨4⟩).on "go").effect fun _ i => i.setCurrent ⟨2⟩ ⟨7⟩)])

/-- The machine is well formed, and yet, when it has been initialised, a message is consumed by a state that was not
active when the message came. -/
def ConsumesLate (m : Machine String Unit) : Prop :=
  m.Built ∧ m.isWellFormed = true ∧ ∃ play : Play String Unit, m.Plays play ∧
    answer? (play.1.evaluate Context.strict 50 "go" play.2.1 ()).2 = some true ∧
    ∃ v ∈ (play.1.told Context.strict 50 "go" play.2.1 ()).filterMap play.1.answered?,
      play.1.isActive play.2.1 v = false

theorem consumesLate_of_played {edits : List (Edit String Unit)} {m : Machine String Unit}
    (hm : m = (ofName "m").edited edits) (hw : m.isWellFormed = true) (v : VertexId) (hp : (m.played 50 () []).isSome)
    (ha : answer? (((m.played 50 () []).get hp).1.evaluate Context.strict 50 "go"
      ((m.played 50 () []).get hp).2.1 ()).2 = some true)
    (hv : v ∈ (((m.played 50 () []).get hp).1.told Context.strict 50 "go" ((m.played 50 () []).get hp).2.1 ()).filterMap
      ((m.played 50 () []).get hp).1.answered? ∧
      ((m.played 50 () []).get hp).1.isActive ((m.played 50 () []).get hp).2.1 v = false) : ConsumesLate m :=
  ⟨hm ▸ (Built.ofName "m").edited edits, hw, _, plays_of_played m 50 () [] hp, ha, v, hv.1, hv.2⟩

/-- Neither way to consume a message late can be left out. -/
theorem consumed_late : ConsumesLate crossing ∧ ConsumesLate switching :=
  ⟨consumesLate_of_played rfl (by decide +kernel) ⟨7⟩ (by decide +kernel) (by decide +kernel) (by decide +kernel),
    consumesLate_of_played rfl (by decide +kernel) ⟨7⟩ (by decide +kernel) (by decide +kernel) (by decide +kernel)⟩

end Session

end Machine

end Statechart
