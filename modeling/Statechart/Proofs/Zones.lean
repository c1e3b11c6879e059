import Statechart.Proofs.Execution

/-!
# Evaluations that keep to a zone

A zone is a set of vertices to which belongs whatever stands beneath one of them. A condition that withstands all that
is done to vertices of the zone is kept by every part of an evaluation that starts there. The only way out of the zone
is a transition, and it enters the vertices outside by way of a gate. From there on another condition may hold, one
that withstands everything.
-/

namespace Statechart

variable {μ δ σ : Type}

namespace Model

variable {m : Model μ δ} {plainly : RegionId → Bool} {A : Action μ δ → Prop} {V V' : VertexId → Prop}

theorem Within.mono {s : Step μ δ} (hs : m.Within A V s) (hV : ∀ v, V v → V' v) : m.Within A V' s := by
  cases s with
  | announceEnter element =>
    cases element with
    | vertex v => exact hV v hs
    | region r => trivial
  | record r v => exact ⟨hs.1, hs.2.1, hV v hs.2.2⟩
  | enterRegion r initial kind => exact ⟨hs.1, fun v hv => hV v (hs.2.1 v hv), hs.2.2⟩
  | traverse t =>
    obtain ⟨record, hrec, hsource, hv⟩ := hs
    exact ⟨record, hrec, hsource, hV _ hv⟩
  | _ => exact hs

theorem Descent.forall_mem {l : List VertexId} {u : VertexId} (hl : m.Descent l u) (hV : m.Hereditary V)
    (hhead : ∀ v ∈ l.head?, V v) : (∀ v ∈ l, V v) ∧ V u := by
  induction hl with
  | last u => simpa using hhead
  | @step v w u r rest hw hr _ ih =>
    have hv : V v := hhead v rfl
    obtain ⟨hrest, hu⟩ := ih (by rintro _ ⟨⟩; exact hV hw hr hv)
    exact ⟨List.forall_mem_cons.mpr ⟨hv, hrest⟩, hu⟩

theorem Descent.vertex?_isSome {v u : VertexId} {rest : List VertexId} (hl : m.Descent (v :: rest) u)
    (h : m.Arena) (hu : (m.vertex? u).isSome) : (m.vertex? v).isSome := by
  cases hl with
  | last u => exact hu
  | step _ hr _ => exact vertex?_isSome_of_isState (h.isState_of_owner? hr)

theorem cascade_eq {v : VertexId} (hv : (m.vertex? v).isSome) (rest : List VertexId) :
    ∃ l, m.cascade plainly (v :: rest) = .announceEnter (.vertex v) :: l := by
  obtain ⟨record, hrec⟩ := Option.isSome_iff_exists.mp hv
  have hbegin : ∃ l, m.beginEnterVertex v = .announceEnter (.vertex v) :: l := by
    simp only [beginEnterVertex, hrec]
    cases record.form <;> exact ⟨_, rfl⟩
  obtain ⟨l, hl⟩ := hbegin
  cases rest <;> simp [cascade, hl]

end Model

namespace Eval

open Model

variable {m : Model μ δ} {plainly : RegionId → Bool} {c : Context σ} {A : Action μ δ → Prop} {V : VertexId → Prop}
variable {O : Trigger μ → Prop} {P S R J : Run μ δ σ → Prop}

/-! ## Conditions that withstand an evaluation -/

/-- The condition withstands whatever is done to vertices in `V` by an evaluation whose actions satisfy `A`, and in
which states are offered and fire upon nothing but triggers that satisfy `O`. -/
structure Durable (m : Model μ δ) (A : Action μ δ → Prop) (V : VertexId → Prop) (O : Trigger μ → Prop)
    (P : Run μ δ σ → Prop) : Prop where
  enter : ∀ run element s, (∀ v, element = .vertex v → V v) → P run →
    P { run.note (.entered element) with outside := s }
  leave : ∀ run element s, P run → P { run.note (.left element) with outside := s }
  act : ∀ run action trigger cause, A action → P run → P ((run.note (.acted cause)).update (action trigger))
  record : ∀ run r v, m.parent? v = some r → m.isState v = true → V v → P run → P (run.update (·.setCurrent r v))
  terminate : ∀ run, P run → P (run.update (·.setTerminated true))
  arrived : ∀ run l, P run → P { run with arrived := l }
  offered : ∀ run v trigger, V v → O trigger → P run → P (run.note (.offered v trigger))
  fired : ∀ run t record trigger, m.transition? t = some record → V record.source →
    (m.isState record.source = true → O trigger) → P run → P (run.note (.fired t trigger run.inst))
  aloof : Aloof P
  /-- A region whose members are in `V` records one of them. -/
  current : ∀ run r v, (∀ w, m.parent? w = some r → V w) → P run → run.inst.current? r = some v → V v

structure Lasts (m : Model μ δ) (plainly : RegionId → Bool) (c : Context σ) (A : Action μ δ → Prop)
    (V : VertexId → Prop) (O : Trigger μ → Prop) (J : Run μ δ σ → Prop) (k : Nat) : Prop where
  step : ∀ mode s, m.Within A V s →
    Triple J (performStep m (m.compileWith plainly) c k mode s) (fun _ => J) fun _ => J
  traverse : ∀ mode t record, m.transition? t = some record → V record.source →
    (m.isState record.source = true → O mode.trigger) →
    Triple J (traverse m (m.compileWith plainly) c k mode t) (fun _ => J) fun _ => J
  follow : ∀ trigger t record, m.transition? t = some record → V record.source →
    (m.isState record.source = true → O trigger) →
    Triple J (follow m (m.compileWith plainly) c k trigger t) (fun _ => J) fun _ => J
  completeAll : ∀ l, (∀ v ∈ l, V v) → Triple J (completeAll m (m.compileWith plainly) c k l) (fun _ => J) fun _ => J
  complete : ∀ v, V v → Triple J (complete m (m.compileWith plainly) c k v) (fun _ => J) fun _ => J
  offer : ∀ trigger v, V v → O trigger →
    Triple J (offer m (m.compileWith plainly) c k trigger v) (fun _ => J) fun _ => J
  offerBeneath : ∀ trigger v rs, V v → O trigger → (∀ r ∈ rs, ∀ w, m.parent? w = some r → V w) →
    Triple J (offerBeneath m (m.compileWith plainly) c k trigger v rs) (fun _ => J) fun _ => J

def Admitted (m : Model μ δ) (O : Trigger μ → Prop) : Event μ δ → Prop
  | .offered _ trigger => O trigger
  | .fired t trigger _ => ∃ record, m.transition? t = some record ∧ (m.isState record.source = true → O trigger)
  | _ => True

theorem Durable.noting (hP : Durable m A V O P) {Q : List (Event μ δ) → Prop}
    (hQ : ∀ event events, Admitted m O event → Q events → Q (event :: events)) :
    Durable m A V O fun run => P run ∧ Q run.events where
  enter run element s hv hr := ⟨hP.enter run element s hv hr.1, hQ _ _ trivial hr.2⟩
  leave run element s hr := ⟨hP.leave run element s hr.1, hQ _ _ trivial hr.2⟩
  act run action trigger cause ha hr := ⟨hP.act run action trigger cause ha hr.1, hQ _ _ trivial hr.2⟩
  record run r v hp hs hv hr := ⟨hP.record run r v hp hs hv hr.1, hr.2⟩
  terminate run hr := ⟨hP.terminate run hr.1, hr.2⟩
  arrived run l hr := ⟨hP.arrived run l hr.1, hr.2⟩
  offered run v trigger hv ht hr := ⟨hP.offered run v trigger hv ht hr.1, hQ _ _ ht hr.2⟩
  fired run t record trigger hrec hv ht hr :=
    ⟨hP.fired run t record trigger hrec hv ht hr.1, hQ _ _ ⟨record, hrec, ht⟩ hr.2⟩
  aloof run event s he hr := by
    refine ⟨hP.aloof run event s he hr.1, hQ _ _ ?_ hr.2⟩
    cases event <;> first | exact he.elim | trivial
  current run r v hr hrun := hP.current run r v hr hrun.1

theorem durable_any : Durable m (fun _ => True) (fun _ => True) O (fun _ : Run μ δ σ => True) := by
  constructor <;> intros <;> first | trivial | exact fun _ _ _ _ _ => trivial

theorem durable_fits :
    Durable m Action.KeepsRecords (fun _ => True) O fun run : Run μ δ σ => m.Fits false run.inst where
  enter _ _ _ _ hr := hr
  leave _ _ _ hr := hr
  act run action trigger _ ha hr := hr.congr (ha trigger run.inst)
  record _ _ _ hp _ _ hr := hr.setCurrent hp (by simp)
  terminate _ hr := hr.congr rfl
  arrived _ _ hr := hr
  offered _ _ _ _ _ hr := hr
  fired _ _ _ _ _ _ _ hr := hr
  aloof _ _ _ _ hr := hr
  current _ _ _ _ _ _ := trivial

theorem lasts_false (k : Nat) : Lasts m plainly c A V O (fun _ => False) k := by
  constructor <;> intros <;> exact fun _ hr => hr.elim

theorem durable_false : Durable m A V O (fun _ : Run μ δ σ => False) := by
  constructor <;> intros <;> first | contradiction | exact fun _ _ _ _ hr => hr

theorem Lasts.does {n : Nat} (hL : ∀ k < n, Lasts m plainly c A V O J k) (mode : Mode μ) {l : List (Step μ δ)}
    (hl : ∀ s ∈ l, m.Within A V s) : Does m (m.compileWith plainly) c (fun _ => J) n mode J l J :=
  Does.keeps (fun _ hr => hr) fun s hs fuel hf => (hL fuel hf).step mode s (hl s hs)

/-! ## Keeping to a zone -/

def Inside (V : VertexId → Prop) (P : Run μ δ σ → Prop) (run : Run μ δ σ) : Prop := P run ∧ ∀ v ∈ run.arrived, V v

/-- The run has come by a gate and satisfies `R`, or it has kept to the zone and satisfies `P`. -/
def Zoned (V : VertexId → Prop) (P R : Run μ δ σ → Prop) (run : Run μ δ σ) : Prop := R run ∨ Inside V P run

theorem triple_zoned {α : Type} {x : Eval μ δ σ α} (hx : Triple R x (fun _ => R) fun _ => R)
    (hin : Triple (Inside V P) x (fun _ => Zoned V P R) fun _ => Zoned V P R) :
    Triple (Zoned V P R) x (fun _ => Zoned V P R) fun _ => Zoned V P R :=
  Triple.or (hx.conseq (fun _ hr => hr) (fun _ _ => Or.inl) fun _ _ => Or.inl) hin

section
variable (h : m.Arena) (hA : m.Acts A) (hV : m.Hereditary V) (hO : ∀ v, O (.completion v))
variable (hP : Durable m A V O P) (hR : Durable m A (fun _ => True) O R)
variable (hgate : ∀ v e, V v → m.Leads v e →
  V e ∨ ∀ run s, P run → R { run.note (.entered (.vertex e)) with outside := s })
variable (hRL : ∀ k, Lasts m plainly c A (fun _ => True) O R k) {k : Nat}
variable (hL : ∀ j < k, Lasts m plainly c A V O (Zoned V P R) j)

include hP hR in
theorem aloof_zoned : Aloof (Zoned V P R) := fun run event s he hr =>
  hr.imp (hR.aloof run event s he) fun hr => ⟨hP.aloof run event s he hr.1, hr.2⟩

include h hA hV hP hRL hL in
theorem zoned_step {mode : Mode μ} {s : Step μ δ} (hs : m.Within A V s) :
    Triple (Zoned V P R) (performStep m (m.compileWith plainly) c k mode s) (fun _ => Zoned V P R)
      fun _ => Zoned V P R := by
  -- Once by the gate, anything keeps `R`; so the run may be taken to be inside.
  refine triple_zoned ((hRL k).step mode s (hs.mono fun _ _ => trivial)) ?_
  have hE : ∀ run, Inside V P run → Zoned V P R run := fun _ => Or.inr
  cases s with
  | announceEnter element =>
    refine triple_announceEnter hE fun run s hr => Or.inr ⟨hP.enter run element s ?_ hr.1, hr.2⟩
    rintro v rfl; exact hs
  | announceLeave element =>
    exact triple_announceLeave hE fun run s hr => Or.inr ⟨hP.leave run element s hr.1, hr.2⟩
  | act cause action => exact triple_act hE fun run hr => Or.inr ⟨hP.act run action _ cause hs hr.1, hr.2⟩
  | record r v => exact triple_record hE fun run hr => Or.inr ⟨hP.record run r v hs.1 hs.2.1 hs.2.2 hr.1, hr.2⟩
  | terminate => exact triple_terminate hE fun run hr => Or.inr ⟨hP.terminate run hr.1, hr.2⟩
  | leaveRegion r =>
    refine triple_leaveRegion hE (fun run _ hr _ _ => hE run hr) (fun run hr _ => hE run hr) fun v j hj => ?_
    have hleave := Lasts.does (fun i hi => hL i (by omega)) { mode with deep := false } (within_leaveVertex h hA v)
    exact (hleave j (by omega)).pre fun run hr => hE run hr.1
  | enterRegion r initial kind =>
    refine triple_enterRegion_either (R := Zoned V P R) hE (fun run _ hr _ _ => hE run hr) (fun _ => hE)
      (fun run v hr hv => hP.current run r v hs.2.1 hr.1 hv) (fun v hi => hs.2.1 v (hs.2.2 v hi))
      (fun deep v hv j hj => ?_) fun deep v hv j hj => ?_
    · exact (Lasts.does (fun i hi => hL i (by omega)) _ (within_beginEnterVertex hA hv) j (Nat.le_refl j)).pre hE
    · exact Lasts.does (fun i hi => hL i (by omega)) _ (within_endEnterVertex h hA hV hv) j (Nat.le_refl j)
  | traverse t =>
    obtain ⟨record, hrec, hsource, hv⟩ := hs
    refine triple_traverseStep hE fun j hj => ((hL j hj).traverse mode t record hrec hv ?_).pre hE
    intro hs; rw [hsource] at hs; cases hs

include h hA hV hgate hRL hL in
theorem zoned_route {t : TransitionId} {record : Transition μ δ} {u : VertexId} (hrec : m.transition? t = some record)
    (hu : record.target = some u) (hsource : V record.source) (mode : Mode μ) (i : Instance δ) :
    Triple (Inside V P) (perform m (m.compileWith plainly) c k mode ((m.route plainly t).steps i))
      (fun _ run => R run ∨ Inside V P run ∧ V u) fun _ => Zoned V P R := by
  obtain ⟨before, d, e, rest, hsteps, hbefore, hdescent, hleads⟩ := @steps_cases _ _ m plainly t record u hrec h hu i
  rw [hsteps]
  rcases hgate record.source e hsource hleads with he | he
  · obtain ⟨hall, hvu⟩ := hdescent.forall_mem hV (by rintro _ ⟨⟩; exact he)
    refine ((Lasts.does hL mode (l := before ++ m.arrival plainly t (e :: rest) u) fun s hs => ?_) k
      (Nat.le_refl k)).conseq (fun _ => Or.inr) (fun _ run hr => hr.imp id fun hr => ⟨hr, hvu⟩) fun _ _ hr => hr
    exact (List.mem_append.mp hs).elim (fun hs => (hbefore s hs).within h hA) (within_arrival h hA hV t hall hvu s)
  · -- Up to the gate nothing is entered, and from the gate on `R` holds.
    have hknown := hdescent.vertex?_isSome h (h.target_isSome hrec hu)
    obtain ⟨tail, htail⟩ := @cascade_eq _ _ m plainly e hknown rest
    have harrival : m.arrival plainly t (e :: rest) u =
        m.effectsOf t ++ .announceEnter (.vertex e) :: (tail ++ m.endEnterVertex plainly u) := by
      simp [arrival, htail]
    have hto : Does m (m.compileWith plainly) c (fun _ => Zoned V P R) k mode (Zoned V P R) (before ++ m.effectsOf t)
        (Zoned V P R) :=
      Lasts.does hL mode fun s hs =>
        (List.mem_append.mp hs).elim (fun hs => (hbefore s hs).within h hA) (within_effectsOf hA t s)
    have hby : Does m (m.compileWith plainly) c (fun _ => Zoned V P R) k mode (Zoned V P R)
        [.announceEnter (.vertex e)] R := by
      refine Does.single (fun _ hr => hr) fun fuel hf => Triple.or ?_ ?_
      · exact ((hRL fuel).step mode (.announceEnter (.vertex e)) trivial).halts fun _ _ => Or.inl
      · exact triple_announceEnter (fun _ => Or.inr) fun run s hr => he run s hr.1
    have hfrom : Does m (m.compileWith plainly) c (fun _ => R) k mode R (tail ++ m.endEnterVertex plainly u) R := by
      refine Lasts.does (fun j _ => hRL j) mode fun s hs => ?_
      have hmem : s ∈ m.arrival plainly t (e :: rest) u := by
        rw [harrival]; simp only [List.mem_append, List.mem_cons] at hs ⊢
        exact Or.inr (Or.inr hs)
      exact within_arrival h hA (fun _ _ _ => trivial) t (fun _ _ => trivial) trivial s hmem
    rw [harrival, ← List.append_assoc, ← List.singleton_append]
    refine ((hto.append (hby.append fun fuel hf => (hfrom fuel hf).conseq (fun _ hr => hr) (fun _ _ hr => hr)
      fun _ _ => Or.inl)) k (Nat.le_refl k)).conseq (fun _ => Or.inr) (fun _ _ => Or.inl) fun _ _ hr => hr

include h hA hV hP hR hgate hRL hL in
theorem zoned_follow {t : TransitionId} {record : Transition μ δ} (hrec : m.transition? t = some record)
    (hsource : V record.source) {trigger : Trigger μ}
    (hnote : ∀ run, S run → Inside V P (run.note (.fired t trigger run.inst))) :
    Triple S (follow m (m.compileWith plainly) c k trigger t) (fun _ => Zoned V P R)
      fun _ run => S run ∨ Zoned V P R run := by
  have hroute : (m.compileWith plainly).route? t = some (m.route plainly t) := route?_compileWith (by simp [hrec])
  cases hu : record.target with
  | none =>
    refine triple_follow (R := Zoned V P R) (fun _ => Or.inl) hrec hroute hnote (aloof_zoned hP hR) (fun i j hj => ?_)
      (fun _ _ hr => hr) ?_ ?_ ?_ ?_ ?_ ?_
    · rw [steps_internal hrec hu]
      exact (Lasts.does (fun l hl => hL l (by omega)) _ (within_effectsOf hA t) j (Nat.le_refl j)).conseq
        (fun _ hr => Or.inr hr.1) (fun _ _ hr => hr) fun _ _ => Or.inr
    · intro run u _ hu'; rw [hu] at hu'; cases hu'
    all_goals intro u hu'; rw [hu] at hu'; cases hu'
  | some u =>
    -- At a branch it still counts whether the zone has been kept to, and with it `u`.
    have hK : Aloof fun run => R run ∨ Inside V P run ∧ V u := fun run event s he hr =>
      hr.imp (hR.aloof run event s he) fun hr => ⟨⟨hP.aloof run event s he hr.1.1, hr.1.2⟩, hr.2⟩
    have hJ : ∀ run, R run ∨ Inside V P run ∧ V u → Zoned V P R run := fun _ => Or.imp id And.left
    refine triple_follow (R := fun run => R run ∨ Inside V P run ∧ V u) (fun _ => Or.inl) hrec hroute hnote hK
      (fun i j hj => ?_) (fun _ run hr => hJ run hr) (fun run _ hr _ _ => Or.inr (hJ run hr))
      (fun u' hu' _ run hr => ?_) (fun _ _ _ _ run hr => hJ run hr) (fun u' hu' hb next hn j hj => ?_)
      (fun _ _ _ run _ hr => Or.inr (hJ run hr)) fun _ _ _ _ run hr => hJ run hr
    · exact (zoned_route h hA hV hgate hRL (fun l hl => hL l (by omega)) hrec hu hsource _ i).conseq
        (fun _ hr => hr.1) (fun _ _ hr => hr) fun _ _ => Or.inr
    · rw [hu] at hu'; cases hu'
      refine hr.imp (hR.arrived run _) fun hr => ⟨hP.arrived run _ hr.1.1, fun v hv => ?_⟩
      rcases List.mem_append.mp hv with hv | hv
      · exact hr.1.2 v hv
      · rw [List.mem_singleton] at hv; exact hv ▸ hr.2
    · rw [hu] at hu'; cases hu'
      obtain ⟨record', hrec', hsource'⟩ := h.source_of_mem_outgoing hn
      have hnot : m.isState record'.source = true → O trigger := by
        intro hs; rw [hsource'] at hs; rw [isBranch_of_isState hs] at hb; cases hb
      refine Triple.or ?_ (Triple.of_imp fun hv => ?_)
      · exact ((hRL j).follow trigger next record' hrec' trivial hnot).conseq (fun _ hr => hr) (fun _ _ => Or.inl)
          fun _ _ hr => Or.inr (Or.inl hr)
      · exact ((hL j hj).follow trigger next record' hrec' (hsource' ▸ hv) hnot).conseq (fun _ => Or.inr)
          (fun _ _ hr => hr) fun _ _ => Or.inr

include hP hR hRL in
theorem zoned_arrivals (hLk : Lasts m plainly c A V O (Zoned V P R) k) (l : List VertexId) :
    Triple (fun run => run.arrived = [] ∧ Zoned V P R { run with arrived := l })
      (completeAll m (m.compileWith plainly) c k l) (fun _ => Zoned V P R) fun _ => Zoned V P R := by
  refine Triple.assume fun run ⟨hnil, hr⟩ => ?_
  rcases hr with hr | hr
  · have hr' : R run := hR.arrived { run with arrived := l } run.arrived hr
    exact (((hRL k).completeAll l fun _ _ => trivial).conseq (fun _ hr => hr) (fun _ _ => Or.inl)
      fun _ _ => Or.inl).start hr'
  · have hr' : P run := hP.arrived { run with arrived := l } run.arrived hr.1
    exact (hLk.completeAll l hr.2).start (Or.inr ⟨hr', by simp [hnil]⟩)

include h hA hV hP hR hgate hRL hL in
theorem zoned_fire {t : TransitionId} {record : Transition μ δ} (hrec : m.transition? t = some record)
    (hsource : V record.source) {mode : Mode μ}
    (hnote : ∀ run, S run → Inside V P (run.note (.fired t mode.trigger run.inst))) :
    Triple S (traverse m (m.compileWith plainly) c k mode t) (fun _ => Zoned V P R)
      fun _ run => S run ∨ Zoned V P R run := by
  refine triple_traverse (R := Zoned V P R) (fun _ => Or.inl) (fun j hj => ?_) (fun _ _ hr => hr) fun _ l j hj => ?_
  · exact zoned_follow h hA hV hP hR hgate hRL (fun i hi => hL i (by omega)) hrec hsource hnote
  · exact (zoned_arrivals hP hR hRL (hL j hj) l).halts fun _ _ => Or.inr

include hL hO in
theorem zoned_complete {v : VertexId} (hv : V v) :
    Triple (Zoned V P R) (complete m (m.compileWith plainly) c k v) (fun _ => Zoned V P R) fun _ => Zoned V P R :=
  triple_complete (P := Zoned V P R) (fun _ hr => hr) (fun _ hr _ => hr) (fun _ hr _ => hr) (fun _ hr _ => hr)
    fun j hj => ((hL j hj).offer (.completion v) v hv (hO v)).pre fun _ hr => hr.1

include h hV hP hR hRL hL in
theorem zoned_offer {trigger : Trigger μ} {v : VertexId} (hv : V v) (ht : O trigger) :
    Triple (Zoned V P R) (offer m (m.compileWith plainly) c k trigger v) (fun _ => Zoned V P R)
      fun _ => Zoned V P R := by
  refine triple_zoned ((hRL k).offer trigger v trivial ht) ?_
  have hnote : ∀ run, Inside V P run → Zoned V P R (run.note (.offered v trigger)) := fun run hr =>
    Or.inr ⟨hP.offered run v trigger hv ht hr.1, hr.2⟩
  refine triple_offer (Y := Zoned V P R) (N := Zoned V P R) (fun _ => Or.inr) hnote (fun _ hr _ => Or.inr hr)
    (fun _ hr _ => Or.inr hr) (fun _ _ _ hr _ => hr) (fun _ _ j hj => ?_) (fun _ j hj => (hL j hj).complete v hv)
    (fun _ hr _ => hr) (fun _ t j hj => Triple.assume fun run ⟨hr, henabled⟩ => ?_) fun _ count _ => ?_
  · exact ((hL j hj).offerBeneath trigger v _ hv ht fun _ hr => hV.members h hv hr).either.pre fun _ hr => hr.1
  · obtain ⟨record, hrec, rfl, _⟩ := source_of_enabled h (henabled ▸ List.mem_singleton_self t)
    exact ((hL j hj).traverse _ t record hrec hv fun _ => ht).start hr
  · exact (triple_report (aloof_zoned hP hR) fun _ hr => hr).conseq (fun _ hr => hr.1) (fun _ _ hr => hr.1)
      fun _ _ hr => hr

include hP hRL hL in
theorem zoned_offerBeneath {trigger : Trigger μ} {v : VertexId} {rs : List RegionId} (ht : O trigger)
    (hrs : ∀ r ∈ rs, ∀ w, m.parent? w = some r → V w) :
    Triple (Zoned V P R) (offerBeneath m (m.compileWith plainly) c k trigger v rs) (fun _ => Zoned V P R)
      fun _ => Zoned V P R := by
  refine triple_offerBeneath_keeps (J := Zoned V P R) (fun _ hr => hr) (fun _ hr _ => hr) fun r hr current j hj =>
    Triple.assume fun run ⟨hzoned, hcurrent⟩ => ?_
  rcases hzoned with hleft | hinside
  · exact (((hRL j).offer trigger current trivial ht).conseq (fun _ hr => hr) (fun _ _ => Or.inl)
      fun _ _ => Or.inl).start hleft
  · have hw := hP.current run r current (hrs r hr) hinside.1 hcurrent
    exact ((hL j hj).offer trigger current hw ht).start (Or.inr hinside)

include h hA hV hO hP hR hgate hRL in
theorem lasts_zoned (k : Nat) : Lasts m plainly c A V O (Zoned V P R) k := by
  induction k using Nat.strongRecOn with
  | ind k hL =>
  refine ⟨fun mode s => zoned_step h hA hV hP hRL hL, fun mode t record hrec hsource ht => ?_,
    fun trigger t record hrec hsource ht => ?_, fun l hl => ?_, fun v => zoned_complete hO hL,
    fun trigger v => zoned_offer h hV hP hR hRL hL, fun trigger v rs _ => zoned_offerBeneath hP hRL hL⟩
  · refine triple_zoned ((hRL k).traverse mode t record hrec trivial ht)
      ((zoned_fire h hA hV hP hR hgate hRL hL hrec hsource fun run hr => ?_).halts fun _ _ hr => hr.elim Or.inr id)
    exact ⟨hP.fired run t record _ hrec hsource ht hr.1, hr.2⟩
  · refine triple_zoned ((hRL k).follow trigger t record hrec trivial ht)
      ((zoned_follow h hA hV hP hR hgate hRL hL hrec hsource fun run hr => ?_).halts fun _ _ hr => hr.elim Or.inr id)
    exact ⟨hP.fired run t record _ hrec hsource ht hr.1, hr.2⟩
  · cases l with
    | nil => cases k <;> exact Triple.pure fun _ hr => hr
    | cons v rest =>
      cases k with
      | zero => exact Triple.throw fun _ hr => hr
      | succ k =>
        have hk := hL k (Nat.lt_succ_self k)
        exact Triple.bind (hk.complete v (hl v (by simp))) fun _ =>
          hk.completeAll rest fun w hw => hl w (List.mem_cons_of_mem v hw)

end

/-! ## Conditions that withstand everything -/

theorem zoned_everything : Zoned (fun _ => True) P (fun _ => False) = P := by funext run; simp [Zoned, Inside]

section
variable (h : m.Arena) (hA : m.Acts A) (hO : ∀ v, O (.completion v)) (hP : Durable m A (fun _ => True) O P)
include h hA hO hP

theorem Durable.lasts (k : Nat) : Lasts m plainly c A (fun _ => True) O P k := by
  have hzoned : Lasts m plainly c A (fun _ => True) O (Zoned (fun _ => True) P fun _ => False) k :=
    lasts_zoned h hA (fun _ _ _ => trivial) hO hP durable_false (fun _ _ _ _ => Or.inl trivial) lasts_false k
  rwa [zoned_everything] at hzoned

theorem Durable.fire {t : TransitionId} {record : Transition μ δ} (hrec : m.transition? t = some record)
    {mode : Mode μ} (hnote : ∀ run, S run → P (run.note (.fired t mode.trigger run.inst))) (k : Nat) :
    Triple S (traverse m (m.compileWith plainly) c k mode t) (fun _ => P) fun _ run => S run ∨ P run := by
  have hlasts : ∀ j < k, Lasts m plainly c A (fun _ => True) O (Zoned (fun _ => True) P fun _ => False) j := by
    intro j _; rw [zoned_everything]; exact hP.lasts h hA hO j
  have hfire := zoned_fire h hA (fun _ _ _ => trivial) hP durable_false (fun _ _ _ _ => Or.inl trivial) lasts_false
    hlasts hrec trivial fun run hr => ⟨hnote run hr, fun _ _ => trivial⟩
  rwa [zoned_everything] at hfire

end

end Eval

end Statechart
