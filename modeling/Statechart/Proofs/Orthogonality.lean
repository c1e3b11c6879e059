import Statechart.Proofs.Agreement
import Statechart.Proofs.Dispatch
import Statechart.Proofs.Tandem

/-!
# Regions side by side

Where the transitions within each region of a state stay within it, and the instance has no say in whether they are
enabled, a message does to each region of the state what it would do whatever stood in the others. While the message is
offered to one of them, two runs that record the same there go in step, and nothing happens in the others.
-/

namespace Statechart

variable {μ δ σ τ : Type}

def Guard.Impersonal (guard : Guard μ δ) : Prop :=
  ∀ source trigger i i', guard.check source trigger i = guard.check source trigger i'

namespace Model

variable {m : Model μ δ}

/-! ## Regions with nothing in common -/

def Lacks (m : Model μ δ) (kind : PseudoKind) : Prop :=
  ∀ v record, m.vertex? v = some record → record.form ≠ .pseudo kind

/-- The transitions within a region of the state stay within it, and the instance has no say in them. -/
structure Secludes (m : Model μ δ) (s : VertexId) : Prop where
  target : ∀ r ∈ m.regionsOf s, ∀ t ∈ m.transitionIds, ∀ record ∈ m.transition? t, m.Above r record.source →
    ∀ u ∈ record.target, m.Above r u
  guard : ∀ r ∈ m.regionsOf s, ∀ t ∈ m.transitionIds, ∀ record ∈ m.transition? t, m.Above r record.source →
    record.guard.Impersonal

structure Ongoing (m : Model μ δ) (s : VertexId) (i : Instance δ) : Prop where
  fits : m.Fits false i
  lasts : i.terminated = false
  active : m.isActive i s = true

theorem Ongoing.congr {s : VertexId} {i i' : Instance δ} (hi : m.Ongoing s i) (hr : i'.records = i.records)
    (ht : i'.terminated = i.terminated) : m.Ongoing s i' :=
  ⟨hi.fits.congr hr, ht.trans hi.lasts, (isActive_of_records hr s).trans hi.active⟩

theorem not_hosts {kind : PseudoKind} (hl : m.Lacks kind) {V : VertexId → Prop} : ¬ m.Hosts V kind :=
  fun ⟨v, record, _, hrec, hf⟩ => hl v record hrec hf

section
variable (h : m.Arena) {s v : VertexId} {q r : RegionId} (hq : m.owner? q = some s)
include h hq

theorem Secludes.above (hs : m.Secludes s) {t : TransitionId} {record : Transition μ δ} {u : VertexId}
    (hrec : m.transition? t = some record) (hsource : m.Above q record.source) (hu : record.target = some u) :
    m.Above q u :=
  hs.target q (h.mem_regionsOf.mpr hq) t (mem_transitionIds hrec) record hrec hsource u hu

theorem precinct_above (hs : m.Secludes s) : m.Precinct (m.Above q) where
  hereditary hp ho hv := above_of_owner h hp ho hv
  whole hv hp := above_of_parent_eq h hp.symm hv
  target hrec hsource hu := hs.above h hq hrec hsource hu
  apex hrec hsource hu hd := above_of_divergence h hq hsource (hs.above h hq hrec hsource hu) hd

theorem Ongoing.setCurrent {i : Instance δ} (hi : m.Ongoing s i) (hp : m.parent? v = some r) (hv : m.Above q v) :
    m.Ongoing s (i.setCurrent r v) := by
  refine ⟨hi.fits.setCurrent hp (by simp), hi.lasts, ?_⟩
  have hknown := vertex?_isSome_of_isState (h.isState_of_owner? hq)
  rw [isActive_congr h hknown fun p hps => ?_]
  · exact hi.active
  · have hne : r ≠ p := by
      rintro rfl
      exact not_above_owner h hq (above_trans h ((above_iff h hp q).mp hv) s hknown hps)
    simp [Instance.current?_setCurrent, hne]

theorem not_encloses {p : RegionId} (hr : m.owner? r = some s) (hne : r ≠ q) (hp : m.parent? v = some p)
    (hv : m.Above q v) : ¬ m.Encloses r p :=
  fun hrp => hne (above_unique h hr hq ((above_iff h hp r).mpr hrp) hv)

end

end Model

namespace Eval

open Model

variable {m : Model μ δ} {c : Context σ} {c' : Context τ} {s : VertexId} {q r : RegionId}

/-! ## Two runs on a level -/

/-- Since the start nothing has been recorded in the other regions of the state. -/
def Beside (m : Model μ δ) (s : VertexId) (q : RegionId) (start run : Run μ δ σ) : Prop :=
  ∀ r, m.owner? r = some s → r ≠ q → ∀ p, m.Encloses r p → run.inst.current? p = start.inst.current? p

/-- The runs record the same within the region; and since both have started, nothing has been recorded in the other
regions of the state. -/
structure Level (m : Model μ δ) (s : VertexId) (q : RegionId) (start : Run μ δ σ) (start' : Run μ δ τ)
    (run : Run μ δ σ) (run' : Run μ δ τ) : Prop where
  ongoing : m.Ongoing s run.inst
  ongoing' : m.Ongoing s run'.inst
  same : ∀ p, m.Encloses q p → run.inst.current? p = run'.inst.current? p
  arrived : run.arrived = run'.arrived
  inside : ∀ v ∈ run.arrived, m.Above q v
  beside : Beside m s q start run
  beside' : Beside m s q start' run'

structure Still (run next : Run μ δ σ) : Prop where
  records : next.inst.records = run.inst.records
  terminated : next.inst.terminated = run.inst.terminated
  arrived : next.arrived = run.arrived

theorem Beside.still {start run next : Run μ δ σ} (hb : Beside m s q start run) (hn : Still run next) :
    Beside m s q start next := by
  intro r hr hne p hp
  rw [← hb r hr hne p hp, Instance.current?, Instance.current?, hn.records]

namespace Level

variable {start run next : Run μ δ σ} {start' run' next' : Run μ δ τ}

theorem still (hl : Level m s q start start' run run') (hn : Still run next) (hn' : Still run' next') :
    Level m s q start start' next next' where
  ongoing := hl.ongoing.congr hn.records hn.terminated
  ongoing' := hl.ongoing'.congr hn'.records hn'.terminated
  same p hp := by
    have hsame := hl.same p hp
    rwa [Instance.current?, Instance.current?, ← hn.records, ← hn'.records] at hsame
  arrived := by rw [hn.arrived, hn'.arrived, hl.arrived]
  inside := by
    rw [hn.arrived]
    exact hl.inside
  beside := hl.beside.still hn
  beside' := hl.beside'.still hn'

section
variable (hl : Level m s q start start' run run')
include hl

theorem current {p : RegionId} (h : m.Arena) (hp : ∀ w, m.parent? w = some p → m.Above q w) :
    run.inst.current? p = run'.inst.current? p ∧ ∀ v, run.inst.current? p = some v → m.Above q v := by
  have hsame : ∀ {i : Instance δ} {v}, m.Fits false i → i.current? p = some v →
      run.inst.current? p = run'.inst.current? p := fun hi hv => by
    have hparent := (hi p _ hv).1
    exact hl.same p ((above_iff h hparent q).mp (hp _ hparent))
  refine ⟨?_, fun v hv => hp v (hl.ongoing.fits p v hv).1⟩
  cases hv : run.inst.current? p with
  | some v => rw [← hv, hsame hl.ongoing.fits hv]
  | none =>
    cases hv' : run'.inst.current? p with
    | none => rfl
    | some v => rw [← hv, hsame hl.ongoing'.fits hv', hv']

variable (h : m.Arena) (hq : m.owner? q = some s)
include h hq

theorem isActive (v : VertexId) (hv : (m.vertex? v).isSome) :
    m.Above q v → m.isActive run.inst v = m.isActive run'.inst v := by
  refine h.induction (motive := fun v => m.Above q v → m.isActive run.inst v = m.isActive run'.inst v) ?_ ?_ v hv
  · exact fun hroot => absurd hroot (not_above_root h q)
  · intro v p o hp ho ih hqv
    rw [Bool.eq_iff_iff, isActive_step h hp ho, isActive_step h hp ho, hl.same p ((above_iff h hp q).mp hqv)]
    rcases (above_iff h hp q).mp hqv with rfl | ⟨o', ho', hqo⟩
    · rw [hq] at ho
      cases ho
      simp [hl.ongoing.active, hl.ongoing'.active]
    · rw [ho] at ho'
      cases ho'
      rw [ih hqo]

theorem record {p : RegionId} {v : VertexId} (hp : m.parent? v = some p) (hv : m.Above q v) :
    Level m s q start start' (run.update (·.setCurrent p v)) (run'.update (·.setCurrent p v)) := by
  have hbeside : ∀ {ρ : Type} {start run : Run μ δ ρ}, Beside m s q start run →
      Beside m s q start (run.update (·.setCurrent p v)) := fun hb r hr hne p' hp' => by
    have hdiffer : p ≠ p' := by
      rintro rfl
      exact not_encloses h hq hr hne hp hv hp'
    simp [Instance.current?_setCurrent, hdiffer, hb r hr hne p' hp']
  exact {
    ongoing := hl.ongoing.setCurrent h hq hp hv
    ongoing' := hl.ongoing'.setCurrent h hq hp hv
    same := fun p' hp' => by simp [Instance.current?_setCurrent, hl.same p' hp']
    arrived := hl.arrived
    inside := hl.inside
    beside := hbeside hl.beside
    beside' := hbeside hl.beside' }

end

end Level

/-! ## Offers region by region -/

def offerTo (m : Model μ δ) (p : Program μ δ) (c : Context σ) (fuel : Nat) (trigger : Trigger μ) (q : RegionId) :
    Eval μ δ σ Bool := do
  match (← inst).current? q with
  | none => pure false
  | some v => offer m p c fuel trigger v

/-- The regions of `v` in which the trigger is consumed, when it is offered region by region. -/
def consumers (m : Model μ δ) (p : Program μ δ) (c : Context σ) :
    Nat → Trigger μ → VertexId → List RegionId → Eval μ δ σ (List RegionId)
  | _, _, _, [] => pure []
  | 0, _, _, _ :: _ => throw .outOfFuel
  | fuel + 1, trigger, v, r :: rest => do
    if ← offerTo m p c fuel trigger r then
      if ← isActive m v then
        if (← inst).terminated then pure [r]
        else return r :: (← consumers m p c fuel trigger v rest)
      else pure [r]
    else consumers m p c fuel trigger v rest

theorem offerBeneath_eq_consumers (p : Program μ δ) (c : Context σ) (k : Nat) (trigger : Trigger μ)
    (rs : List RegionId) : offerBeneath m p c k trigger s rs = (!·.isEmpty) <$> consumers m p c k trigger s rs := by
  induction rs generalizing k with
  | nil => cases k <;> rfl
  | cons q rest ih =>
    cases k with
    | zero => rfl
    | succ k =>
      simp only [offerBeneath, consumers, offerTo, ih, map_bind, bind_assoc]
      refine congrArg (inst >>= ·) (funext fun i => ?_)
      cases i.current? q with
      | none => simp
      | some v =>
        refine congrArg (_ >>= ·) (funext fun consumed => ?_)
        cases consumed with
        | false => simp
        | true =>
          simp only [ite_true, map_bind]
          refine congrArg (isActive m s >>= ·) (funext fun active => ?_)
          cases active with
          | false => simp
          | true =>
            simp only [ite_true, map_bind]
            refine congrArg (inst >>= ·) (funext fun i => ?_)
            cases i.terminated <;> simp

theorem ok_of_bind {α β : Type} {x : Eval μ δ σ α} {F : α → Eval μ δ σ β} {run last : Run μ δ σ} {b : β}
    (hx : (x >>= F) run = .ok b last) : ∃ a mid, x run = .ok a mid ∧ F a mid = .ok b last := by
  change EStateM.bind x F run = _ at hx
  unfold EStateM.bind at hx
  cases hres : x run with
  | ok a mid =>
    rw [hres] at hx
    exact ⟨a, mid, rfl, hx⟩
  | error e mid =>
    rw [hres] at hx
    cases hx

/-! ## A message to one region -/

section
variable (h : m.Arena) (hq : m.owner? q = some s) (hs : m.Secludes s) {start : Run μ δ σ} {start' : Run μ δ τ}
variable (hchoice : m.Lacks .choice) (hterminate : m.Lacks .terminate) (hc : c.IsStrict) (hc' : c'.IsStrict)
include h hq hs hchoice hterminate hc hc'

theorem bond_level : Bond m m c c' Action.Tame (m.Above q) (Level m s q start start') where
  enter element := Tandem.modify fun _ _ hl => hl.still ⟨rfl, rfl, rfl⟩ ⟨rfl, rfl, rfl⟩
  leave element := Tandem.modify fun _ _ hl => hl.still ⟨rfl, rfl, rfl⟩ ⟨rfl, rfl, rfl⟩
  act trigger cause action ha := Tandem.modify fun run run' hl =>
    hl.still ⟨(ha trigger run.inst).1, (ha trigger run.inst).2, rfl⟩
      ⟨(ha trigger run'.inst).1, (ha trigger run'.inst).2, rfl⟩
  record r v hp _ hv := Tandem.modify fun _ _ hl => hl.record h hq hp hv
  terminate hhosts := absurd hhosts (not_hosts hterminate)
  arrived _ _ _ hin hl := ⟨hl.ongoing, hl.ongoing', hl.same, rfl, hin, hl.beside, hl.beside'⟩
  offered v trigger := Tandem.modify fun _ _ hl => hl.still ⟨rfl, rfl, rfl⟩ ⟨rfl, rfl, rfl⟩
  fired _ _ _ _ _ _ _ hl := hl.still ⟨rfl, rfl, rfl⟩ ⟨rfl, rfl, rfl⟩
  report e e' he := inStep_report he fun run run' hl =>
    ⟨(hc e run.outside).trans (hc' e' run'.outside).symm, hl.still ⟨rfl, rfl, rfl⟩ ⟨rfl, rfl, rfl⟩⟩
  draw hhosts := absurd hhosts (not_hosts hchoice)
  sameTerminated _ _ hl := by rw [hl.ongoing.lasts, hl.ongoing'.lasts]
  sameArrived _ _ hl := ⟨hl.arrived, hl.inside⟩
  sameCurrent _ _ _ hr hl := hl.current h hr
  sameActive run run' v hv hl := by
    have hknown := vertex?_isSome_of_above hv
    rw [isActive?_eq h hknown, isActive?_eq h hknown, hl.isActive h hq v hknown hv]
  sameCheck run run' t record trigger hrec hsource _ :=
    hs.guard q (h.mem_regionsOf.mpr hq) t (mem_transitionIds hrec) record hrec hsource _ trigger run.inst run'.inst

variable (ht : m.Acts Action.Tame)
include ht

theorem inStep_offerTo (k : Nat) (trigger : Trigger μ) : InStep (Level m s q start start')
    (offerTo m m.compile c k trigger q) (offerTo m m.compile c' k trigger q) := by
  have habides : Abides m m m.isEnteredPlainly c c' Action.Tame (m.Above q) (Level m s q start start') k :=
    abides rfl h ht (precinct_above h hq hs) (bond_level h hq hs hchoice hterminate hc hc') k
  refine Tandem.inst_bind fun run run' hl => ?_
  obtain ⟨hsame, hin⟩ := hl.current h fun w hw => above_parent h hw
  rw [← hsame]
  cases hv : run.inst.current? q with
  | none => exact (Tandem.pure fun _ _ hl => hl).start hl
  | some v => exact (habides.offer trigger v (hin v hv)).start hl

end

theorem exists_offerTo {p : Program μ δ} {k : Nat} {trigger : Trigger μ} {rest l : List RegionId}
    {run last : Run μ δ σ} (hx : consumers m p c (k + 1) trigger s (q :: rest) run = .ok l last) :
    ∃ consumed mid, offerTo m p c k trigger q run = .ok consumed mid ∧
      (m.isActive? mid.inst s = some true → mid.inst.terminated = false →
        ∃ l', consumers m p c k trigger s rest mid = .ok l' last ∧ l = if consumed then q :: l' else l') := by
  simp only [consumers] at hx
  obtain ⟨consumed, mid, hoffer, hx⟩ := ok_of_bind hx
  refine ⟨consumed, mid, hoffer, fun hactive hlasts => ?_⟩
  cases consumed with
  | false => exact ⟨l, hx, rfl⟩
  | true =>
    obtain ⟨active, mid', ha, hx⟩ := ok_of_bind hx
    unfold isActive at ha
    rw [inst_bind_apply, hactive] at ha
    cases ha
    simp only [ite_true] at hx
    rw [inst_bind_apply, hlasts] at hx
    obtain ⟨l', next, hrest, hnext⟩ := ok_of_bind hx
    cases hnext
    exact ⟨l', hrest, rfl⟩

theorem rest_offerTo {p : Program μ δ} (k : Nat) (trigger : Trigger μ) :
    Triple AtRest (offerTo m p c k trigger q) (fun _ => AtRest) fun _ _ => True := by
  refine Triple.bind triple_inst fun i => Triple.pre (P := AtRest) ?_ fun _ hr => hr.1
  cases i.current? q with
  | none => exact Triple.pure fun _ hr => hr
  | some v => exact (comesToRest k).offer trigger v

theorem ok_offerTo (h : m.Arena) (ht : m.Acts Action.Tame) {k n : Nat} {trigger : Trigger μ} {run mid : Run μ δ σ}
    {b : Bool} (hi : m.Fits false run.inst) (hx : offerTo m m.compile c k trigger q run = .ok b mid) (hn : 2 * k ≤ n) :
    offerTo m m.compile c n trigger q run = .ok b mid := by
  have hA : m.Acts Action.KeepsRecords := ht.mono fun _ ha trigger i => (ha trigger i).1
  have hagrees : Agrees (Fitting m) (offerTo m m.compile c k trigger q) (offerTo m m.compile c n trigger q) := by
    refine Agrees.inst_bind fun i => Agrees.pre (P := Fitting m) ?_ fun _ hr => hr.1
    cases i.current? q with
    | none => exact Agrees.refl (pure false)
    | some v => exact (keeps h hA (fun _ hp => hp) (fun _ hp => hp) k).offer n trigger v hn
  rcases hagrees run hi with ⟨_, hout⟩ | heq
  · rw [hx] at hout
    cases hout
  · rw [heq, hx]

/-- Between the offers to two regions, nothing awaits its completion, and the runs record the same within `r`. -/
structure Matched (m : Model μ δ) (s : VertexId) (r : RegionId) (run : Run μ δ σ) (run' : Run μ δ τ) : Prop where
  ongoing : m.Ongoing s run.inst
  ongoing' : m.Ongoing s run'.inst
  same : ∀ p, m.Encloses r p → run.inst.current? p = run'.inst.current? p
  rest : AtRest run
  rest' : AtRest run'

theorem matched_self {run : Run μ δ σ} (hi : m.Ongoing s run.inst) (hr : AtRest run) : Matched m s r run run :=
  ⟨hi, hi, fun _ _ => rfl, hr, hr⟩

theorem Matched.level {run : Run μ δ σ} {run' : Run μ δ τ} (hm : Matched m s r run run') :
    Level m s r run run' run run' where
  ongoing := hm.ongoing
  ongoing' := hm.ongoing'
  same := hm.same
  arrived := hm.rest.trans hm.rest'.symm
  inside v hv := by
    rw [show run.arrived = [] from hm.rest] at hv
    cases hv
  beside _ _ _ _ _ := rfl
  beside' _ _ _ _ _ := rfl

section
variable (h : m.Arena) (hr : m.owner? r = some s) (hs : m.Secludes s) (ht : m.Acts Action.Tame)
variable (hchoice : m.Lacks .choice) (hterminate : m.Lacks .terminate) (hc : c.IsStrict) (hc' : c'.IsStrict)
include h hr hs ht hchoice hterminate hc hc'

theorem matched_offerTo (hq : m.owner? q = some s) {k k' : Nat} {trigger : Trigger μ} {run mid : Run μ δ σ}
    {run' mid' : Run μ δ τ} {b b' : Bool} (hm : Matched m s r run run')
    (hx : offerTo m m.compile c k trigger q run = .ok b mid)
    (hx' : offerTo m m.compile c' k' trigger q run' = .ok b' mid') :
    Matched m s r mid mid' ∧ (q = r → b = b') := by
  -- with fuel enough for either, both runs have the same
  replace hx := ok_offerTo (n := 2 * (k + k')) h ht hm.ongoing.fits hx (by omega)
  replace hx' := ok_offerTo (n := 2 * (k + k')) h ht hm.ongoing'.fits hx' (by omega)
  generalize 2 * (k + k') = n at hx hx'
  have hrest := (rest_offerTo n trigger).of_ok hm.rest hx
  have hrest' := (rest_offerTo n trigger).of_ok hm.rest' hx'
  -- Offers to `r` are compared with each other, and offers to other regions each with a run that stays as it is.
  by_cases hqr : q = r
  · subst hqr
    have hboth := inStep_offerTo h hq hs hchoice hterminate hc hc' ht n trigger _ _ hm.level
    rw [hx, hx'] at hboth
    cases hboth with
    | ok hl => exact ⟨⟨hl.ongoing, hl.ongoing', hl.same, hrest, hrest'⟩, fun _ => rfl⟩
  · have hone := inStep_offerTo h hq hs hchoice hterminate hc hc ht n trigger _ _
      (matched_self hm.ongoing hm.rest).level
    have hother := inStep_offerTo h hq hs hchoice hterminate hc' hc' ht n trigger _ _
      (matched_self hm.ongoing' hm.rest').level
    rw [hx] at hone
    rw [hx'] at hother
    cases hone with
    | ok hl =>
      cases hother with
      | ok hl' =>
        have hsame := hl.beside r hr (Ne.symm hqr)
        have hsame' := hl'.beside r hr (Ne.symm hqr)
        exact ⟨⟨hl.ongoing, hl'.ongoing, fun p hp => by rw [hsame p hp, hsame' p hp, hm.same p hp], hrest, hrest'⟩,
          fun heq => absurd heq hqr⟩

theorem matched_consumers {trigger : Trigger μ} {rs : List RegionId} (hrs : ∀ q ∈ rs, m.owner? q = some s)
    {k k' : Nat} {run last : Run μ δ σ} {run' last' : Run μ δ τ} {l l' : List RegionId} (hm : Matched m s r run run')
    (hx : consumers m m.compile c k trigger s rs run = .ok l last)
    (hx' : consumers m m.compile c' k' trigger s rs run' = .ok l' last') :
    Matched m s r last last' ∧ (r ∈ l ↔ r ∈ l') := by
  induction rs generalizing k k' run run' l l' with
  | nil =>
    have hnil : ∀ {ρ : Type} {c : Context ρ} {k} {run last : Run μ δ ρ} {l},
        consumers m m.compile c k trigger s [] run = .ok l last → l = [] ∧ run = last := fun {_ _ k _ _ _} hx => by
      cases k <;> cases hx <;> exact ⟨rfl, rfl⟩
    obtain ⟨rfl, rfl⟩ := hnil hx
    obtain ⟨rfl, rfl⟩ := hnil hx'
    exact ⟨hm, Iff.rfl⟩
  | cons q rest ih =>
    cases k with
    | zero => cases hx
    | succ k =>
    cases k' with
    | zero => cases hx'
    | succ k' =>
      have hknown := vertex?_isSome_of_isState (h.isState_of_owner? hr)
      obtain ⟨b, mid, hmid, hrest⟩ := exists_offerTo hx
      obtain ⟨b', mid', hmid', hrest'⟩ := exists_offerTo hx'
      obtain ⟨hnext, hsame⟩ := matched_offerTo h hr hs ht hchoice hterminate hc hc' (hrs q List.mem_cons_self) hm
        hmid hmid'
      obtain ⟨l, hl, rfl⟩ := hrest (by rw [isActive?_eq h hknown, hnext.ongoing.active]) hnext.ongoing.lasts
      obtain ⟨l', hl', rfl⟩ := hrest' (by rw [isActive?_eq h hknown, hnext.ongoing'.active]) hnext.ongoing'.lasts
      obtain ⟨hlast, hmem⟩ := ih (fun q hq => hrs q (List.mem_cons_of_mem _ hq)) hnext hl hl'
      refine ⟨hlast, ?_⟩
      by_cases hqr : q = r
      · rw [hsame hqr]
        cases b' <;> simp [hmem]
      · cases b <;> cases b' <;> simp [hmem, Ne.symm hqr]

end

end Eval

namespace Machine

/-- A trigger is offered to all regions of a state, in two instances that record the same within the region `r`. Whatever
stands in the other regions, both record the same there afterwards, and it has been consumed there in both or in
neither. -/
theorem Built.regions_keep_apart {m : Machine μ δ} (hm : m.Built) (ht : m.Tame) (hchoice : m.Lacks .choice)
    (hterminate : m.Lacks .terminate) {s : VertexId} {r : RegionId} (hr : m.owner? r = some s) (hs : m.Secludes s)
    {c : Context σ} {c' : Context τ} (hc : c.IsStrict) (hc' : c'.IsStrict) (trigger : Trigger μ) {fuel fuel' : Nat}
    {run last : Run μ δ σ} {run' last' : Run μ δ τ} (hmatched : Eval.Matched m.toModel s r run run') {b b' : Bool}
    (hx : Eval.offerBeneath m.toModel m.toModel.compile c fuel trigger s (m.regionsOf s) run = .ok b last)
    (hx' : Eval.offerBeneath m.toModel m.toModel.compile c' fuel' trigger s (m.regionsOf s) run' = .ok b' last') :
    Eval.Matched m.toModel s r last last' ∧ ∃ l l',
      Eval.consumers m.toModel m.toModel.compile c fuel trigger s (m.regionsOf s) run = .ok l last ∧
      Eval.consumers m.toModel m.toModel.compile c' fuel' trigger s (m.regionsOf s) run' = .ok l' last' ∧
      (r ∈ l ↔ r ∈ l') := by
  have h := hm.sound.arena
  rw [Eval.offerBeneath_eq_consumers] at hx hx'
  obtain ⟨l, _, hl, ⟨⟩⟩ := Eval.ok_of_bind hx
  obtain ⟨l', _, hl', ⟨⟩⟩ := Eval.ok_of_bind hx'
  obtain ⟨hlast, hmem⟩ := Eval.matched_consumers h hr hs (Model.tame_iff.mp ht) hchoice hterminate hc hc'
    (fun q hq => h.mem_regionsOf.mp hq) hmatched hl hl'
  exact ⟨hlast, l, l', hl, hl', hmem⟩

/-- A stove with two plates. The left one is off or on, and the right one goes up and stays there. -/
def stove : Machine String Unit := (ofName "m").edited
  [.addState (.state root) "stove", .addPseudoState (.region ⟨0⟩) "start" .initial, .addTransition (.between ⟨2⟩ ⟨1⟩),
    .addRegion ⟨1⟩ "left", .addRegion ⟨1⟩ "right", .addPseudoState (.region ⟨1⟩) "start" .initial,
    .addState (.region ⟨1⟩) "off", .addTransition (.between ⟨3⟩ ⟨4⟩), .addState (.region ⟨1⟩) "on",
    .addTransition ((Draft.between ⟨4⟩ ⟨5⟩).on "press"), .addTransition ((Draft.between ⟨5⟩ ⟨4⟩).on "press"),
    .addPseudoState (.region ⟨2⟩) "start" .initial, .addState (.region ⟨2⟩) "low", .addTransition (.between ⟨6⟩ ⟨7⟩),
    .addState (.region ⟨2⟩) "high", .addTransition ((Draft.between ⟨7⟩ ⟨8⟩).on "press")]

def cooking (right : VertexId) : Run String Unit Unit where
  inst := ((({ data := () } : Instance Unit).setCurrent ⟨0⟩ ⟨1⟩).setCurrent ⟨1⟩ ⟨4⟩).setCurrent ⟨2⟩ right
  outside := ()

def pressed (right : VertexId) : EStateM.Result Halt (Run String Unit Unit) Bool :=
  Eval.offerBeneath stove.toModel stove.toModel.compile Context.strict 50 (.message "press") ⟨1⟩ (stove.regionsOf ⟨1⟩)
    (cooking right)

def answering (right : VertexId) : EStateM.Result Halt (Run String Unit Unit) (List RegionId) :=
  Eval.consumers stove.toModel stove.toModel.compile Context.strict 50 (.message "press") ⟨1⟩ (stove.regionsOf ⟨1⟩)
    (cooking right)

set_option maxRecDepth 1024 in
theorem lacks_stove {kind : PseudoKind} (hk : kind ≠ .initial) : stove.Lacks kind := by
  rintro ⟨_ | _ | _ | _ | _ | _ | _ | _ | _ | k⟩ record hrec hf <;> cases hrec <;> cases hf <;> exact hk rfl

set_option maxRecDepth 1024 in
theorem secludes_stove : stove.Secludes ⟨1⟩ where
  target := by decide +kernel
  guard := by
    rintro r - ⟨_ | _ | _ | _ | _ | _ | k⟩ - record hrec - <;> cases hrec <;> exact fun _ _ _ _ => rfl

theorem ongoing_cooking {right : VertexId} (hright : stove.parent? right = some ⟨2⟩)
    (hactive : stove.isActive (cooking right).inst ⟨1⟩ = true) : stove.Ongoing ⟨1⟩ (cooking right).inst where
  fits :=
    (((Model.fits_empty ()).setCurrent (r := ⟨0⟩) (v := ⟨1⟩) (by decide +kernel) (by simp)).setCurrent (r := ⟨1⟩)
      (v := ⟨4⟩) (by decide +kernel) (by simp)).setCurrent hright (by simp)
  lasts := rfl
  active := hactive

theorem regions_keep_apart_stove :
    answer? (answering ⟨7⟩) = some [⟨1⟩, ⟨2⟩] ∧ answer? (answering ⟨8⟩) = some [⟨1⟩] ∧
      Eval.Matched stove.toModel ⟨1⟩ ⟨1⟩ (ran (pressed ⟨7⟩)) (ran (pressed ⟨8⟩)) ∧
      ∃ l l', answering ⟨7⟩ = .ok l (ran (pressed ⟨7⟩)) ∧ answering ⟨8⟩ = .ok l' (ran (pressed ⟨8⟩)) ∧
        (⟨1⟩ ∈ l ↔ ⟨1⟩ ∈ l') := by
  have hbuilt : stove.Built := (Built.ofName "m").edited _
  have hstrict : Context.strict.IsStrict := fun _ _ => rfl
  have htame : stove.Tame :=
    tame_edited "m" (by simp [Edit.Uses, Draft.between, Draft.on, Draft.guarded])
  have hmatched : Eval.Matched stove.toModel ⟨1⟩ ⟨1⟩ (cooking ⟨7⟩) (cooking ⟨8⟩) :=
    { ongoing := ongoing_cooking (by decide +kernel) (by decide +kernel)
      ongoing' := ongoing_cooking (by decide +kernel) (by decide +kernel)
      same := fun p hp => by
        have hne : ⟨2⟩ ≠ p := by
          rintro rfl
          exact Model.not_encloses (s := ⟨1⟩) (q := ⟨2⟩) (v := ⟨7⟩) hbuilt.sound.arena (by decide +kernel)
            (by decide +kernel) (by decide) (by decide +kernel) (by decide +kernel) hp
        simp [cooking, Instance.current?_setCurrent, hne]
      rest := rfl
      rest' := rfl }
  exact ⟨by decide +kernel, by decide +kernel, Built.regions_keep_apart hbuilt htame (lacks_stove (by decide))
    (lacks_stove (by decide)) (by decide +kernel) secludes_stove hstrict hstrict (.message "press") hmatched
    (eq_ok_of_answer? (a := true) (by decide +kernel)) (eq_ok_of_answer? (a := true) (by decide +kernel))⟩

end Machine

end Statechart
