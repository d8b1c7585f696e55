import Linkage.Proofs.Extraction
import Linkage.Proofs.Log

/-!
What a sink gets behind a chain of stages, against what it gets when a class is replayed to it directly. A stage that
reports references keeps classes and methods open that the sink has declined, so that the code of such a method can
break off a replay through the chain that goes on without it. Nothing else differs.
-/
namespace Linkage

variable {σ τ ε ρ : Type}

/-- The class and the method that are open for the sink as well. -/
def Scope.reached (scope : Scope) : Scope := ⟨scope.opened.filter (·.reaches), scope.method.filter (·.reaches)⟩

/-- No method is open for the sink in a class that is not. -/
def Scope.Nested (scope : Scope) : Prop := scope.reached.opened = none → scope.reached.method = none

/-- The stages of the chain work beside this sink and never fail. -/
structure Chain.Accompanies (chain : Chain (σ × τ) ε) (sink : Sink σ ε) : Prop where
  sink_eq : chain.sink = sink.beside
  report_eq : ∀ access s t, ∃ t', chain.report access (s, t) = (.ok (), (s, t'))

namespace Chain

theorem Accompanies.tell_shadows {chain : Chain (σ × τ) ε} {sink : Sink σ ε} (h : chain.Accompanies sink)
    (event : Event) : Run.Shadows Eq (chain.sink.tell event) (sink.tell event) := by
  rw [h.sink_eq, Sink.tell_beside]
  exact .onFirst _

end Chain

theorem Visit.within_shadows {α β : Type} {R : α → β → Prop} {x : Visit (σ × τ) ε α} {y : Visit σ ε β}
    (h : Run.Shadows R x y) (place : Option (String × String)) :
    Run.Shadows R (Visit.within place x) (Visit.within place y) := by
  intro s t
  obtain ⟨a, b, s', t', hx, hy, hab⟩ | ⟨e, s', t', hx, hy⟩ := h s t
  · exact .inl ⟨a, b, s', t', by simp [Visit.within, hx], by simp [Visit.within, hy], hab⟩
  · exact .inr ⟨⟨place, .stage e⟩, s', t', by simp [Visit.within, hx], by simp [Visit.within, hy]⟩

namespace Chain

variable {chain : Chain (σ × τ) ε} {sink : Sink σ ε}

/-- The chain without stages. -/
def direct (sink : Sink σ ε) : Chain σ ε := ⟨[], sink⟩

theorem declare_shadows (h : chain.Accompanies sink) {header : Header} (hname : header.name ≠ "") :
    Run.Shadows (fun opened opened' => opened' = opened.filter (·.reaches)) (chain.declare (some header))
      ((direct sink).declare (some header)) := by
  rw [chain.declare_eq fun _ => hname, (direct sink).declare_eq nofun, h.sink_eq]
  refine (Run.Shadows.onFirst _).bind fun wanted _ hw => .pure ?_
  subst hw
  cases wanted <;> cases chain.observed <;> rfl

theorem take_declare_shadows (h : chain.Accompanies sink) {header : Header} (hname : header.name ≠ "") :
    Run.Shadows (fun after after' => after' = after.reached ∧ after.Nested)
      (chain.take {} (.event none (.declare (some header))))
      ((direct sink).take {} (.event none (.declare (some header)))) := by
  refine (Visit.within_shadows (declare_shadows h hname) none).bind fun opened _ ho => .pure ⟨?_, fun _ => rfl⟩
  rw [ho]
  rfl

theorem method_shadows (h : chain.Accompanies sink) (owner : String) (decl : MethodDecl) :
    Run.Shadows (fun opened opened' => opened' = opened.filter (·.reaches)) (chain.method ⟨owner, true⟩ decl)
      ((direct sink).method ⟨owner, true⟩ decl) := by
  rw [chain.method_eq, (direct sink).method_eq, wants, wants, h.sink_eq]
  refine (Run.Shadows.onFirst _).bind fun wanted _ hw => .pure ?_
  subst hw
  cases wanted <;> cases chain.observed <;> rfl

/-- In a class that the sink has declined no method is opened for it. -/
theorem method_unreached (chain : Chain σ ε) (owner : String) (decl : MethodDecl) :
    ∃ opened : Option OpenMethod, chain.method ⟨owner, false⟩ decl = pure opened ∧
      opened.filter (·.reaches) = none := by
  rw [chain.method_eq]
  refine ⟨_, pure_bind _ _, ?_⟩
  cases chain.observed <;> rfl

theorem code_shadows (h : chain.Accompanies sink) (m : OpenMethod) (event : CodeEvent) :
    Run.Shadows (fun _ _ => True) (chain.code m event)
      (if m.reaches then (direct sink).code m event else pure ()) := by
  have hdirect : (if m.reaches then (direct sink).code m event else pure ()) =
      if m.reaches then sink.tell (.code event) else pure () := by
    rw [code_eq]
    cases event.access? m.source <;> cases m.reaches <;> simp [direct, report]
  have hend : Run.Shadows (fun _ _ => True) (if m.reaches then chain.sink.tell (.code event) else pure ())
      (if m.reaches then sink.tell (.code event) else pure ()) := by
    cases m.reaches with
    | true => exact (h.tell_shadows _).weaken fun _ _ _ => trivial
    | false => exact .pure trivial
  rw [hdirect, chain.code_eq]
  cases event.access? m.source with
  | none => exact hend
  | some access => exact .aside (fun s t => ⟨(), h.report_eq access s t⟩) fun _ => hend

/-- One event does to the sink behind the chain what it does to the sink alone. -/
theorem take_shadows (h : chain.Accompanies sink) {scope : Scope} (hn : scope.Nested) {event : Event}
    {place : Option (String × String)} (hc : (Cue.event place event).OfClass) :
    Run.Shadows (fun after after' => after' = after.reached ∧ after.Nested) (chain.take scope (.event place event))
      ((direct sink).take scope.reached (.event place event)) := by
  obtain ⟨opened, method⟩ := scope
  match event, hc with
  | .member e, _ =>
    cases opened with
    | none => exact .pure ⟨rfl, hn⟩
    | some c =>
      obtain ⟨owner, _ | _⟩ := c
      · exact .pure ⟨rfl, hn⟩
      · exact (Visit.within_shadows (h.tell_shadows (.member e)) place).bind fun _ _ _ => .pure ⟨rfl, hn⟩
  | .method decl, _ =>
    cases opened with
    | none => exact .pure ⟨rfl, hn⟩
    | some c =>
      obtain ⟨owner, _ | _⟩ := c
      · obtain ⟨after, ha, hr⟩ := chain.method_unreached owner decl
        have htake : chain.take ⟨some ⟨owner, false⟩, method⟩ (.event place (.method decl)) =
            pure ⟨some ⟨owner, false⟩, after⟩ := by
          simp only [take, ha]
          rfl
        rw [htake]
        refine .pure ⟨?_, fun _ => hr⟩
        exact congrArg (Scope.mk none) ((hn rfl).trans hr.symm)
      · refine (Visit.within_shadows (method_shadows h owner decl) place).bind fun after after' ha => .pure ⟨?_, ?_⟩
        · rw [ha]
          rfl
        · exact fun he => by cases he
  | .code e, _ =>
    cases method with
    | none => exact .pure ⟨rfl, hn⟩
    | some m =>
      have hcode := Visit.within_shadows (code_shadows h m e) place
      obtain ⟨source, _ | _⟩ := m <;> exact hcode.bind fun _ _ _ => .pure ⟨rfl, hn⟩

end Chain

theorem Visit.within_grows {α ι : Type} {x : Visit (Logged σ ι) ε α} (h : Run.Grows x)
    (place : Option (String × String)) : Run.Grows (Visit.within place x) := by
  intro p
  have hp := h p
  rcases hx : x p with ⟨e | a, q⟩ <;> rw [hx] at hp <;> simpa [Visit.within, hx] using hp

theorem Sink.tell_grows (sink : Sink σ ε) (event : Event) : Run.Grows (Sink.tell (Run.logged sink) event) :=
  (Run.Grows.logged sink event).bind fun _ => .pure ()

namespace Chain

/-- A sink alone is never told fewer events later than before. -/
theorem take_grows (sink : Sink σ ε) (scope : Scope) {cue : Cue} (hc : cue.OfClass) :
    Run.Grows ((direct (Run.logged sink)).take scope cue) := by
  have htell (reaches : Bool) (event : Event) :
      Run.Grows (if reaches then (direct (Run.logged sink)).sink.tell event else pure ()) := by
    cases reaches
    · exact .pure ()
    · exact sink.tell_grows event
  obtain ⟨opened, method⟩ := scope
  match cue, hc with
  | .event place (.member e), _ =>
    cases opened with
    | none => exact .pure _
    | some c => exact (Visit.within_grows (htell c.reaches (.member e)) place).bind fun _ => .pure _
  | .event place (.method decl), _ =>
    cases opened with
    | none => exact .pure _
    | some c =>
      refine Run.Grows.bind (Visit.within_grows ?_ place) fun _ => .pure _
      rw [method_eq]
      refine Run.Grows.bind ?_ fun _ => .pure _
      unfold wants
      split
      · exact .logged sink _
      · exact .pure _
  | .event place (.code e), _ =>
    cases method with
    | none => exact .pure _
    | some m =>
      refine Run.Grows.bind (Visit.within_grows ?_ place) fun _ => .pure _
      rw [code_eq]
      cases e.access? m.source <;> exact htell m.reaches (.code e)
  | .fault place fault, _ =>
    cases method with
    | none => exact .pure _
    | some m => exact .throw _

theorem perform_grows (sink : Sink σ ε) {cues : List Cue} (hc : ∀ cue ∈ cues, cue.OfClass) (scope : Scope) :
    Run.Grows ((direct (Run.logged sink)).perform cues scope) := by
  induction cues generalizing scope with
  | nil => exact .pure scope
  | cons cue cues ih =>
    exact (take_grows sink scope (hc cue (by simp))).bind (ih fun cue h => hc cue (by simp [h]))

variable {sink : Sink σ ε} {chain : Chain (Logged σ Event × τ) ε}

/-- Behind the chain a sink is told the first of the events that it is told alone. -/
theorem perform_log_isPrefix (h : chain.Accompanies (Run.logged sink)) {cues : List Cue}
    (hc : ∀ cue ∈ cues, cue.OfClass) {scope : Scope} (hn : scope.Nested) (p : Logged σ Event) (t : τ) :
    (chain.perform cues scope (p, t)).2.1.log <+:
      ((direct (Run.logged sink)).perform cues scope.reached p).2.log := by
  induction cues generalizing scope p t with
  | nil => exact List.prefix_refl _
  | cons cue cues ih =>
    have hrest : ∀ cue ∈ cues, cue.OfClass := fun cue hm => hc cue (by simp [hm])
    match cue, hc with
    | .event place event, hc =>
      rw [perform_cons, perform_cons]
      obtain ⟨after, _, p', t', ha, hb, rfl, hn'⟩ | ⟨e, p', t', ha, hb⟩ :=
        take_shadows h hn (hc (.event place event) (by simp)) p t
      · rw [Run.bind_ok ha, Run.bind_ok hb]
        exact ih hrest hn' p' t'
      · simp only [Run.bind_error ha, Run.bind_error hb]
        exact List.prefix_refl _
    | .fault place fault, hc =>
      obtain ⟨opened, method⟩ := scope
      cases method with
      | none => exact ih hrest hn p t
      | some m =>
        -- The chain breaks off here; whether or not the sink alone goes on, it is told no less.
        exact perform_grows sink hc _ p

end Chain

/-- The receiver with a state of its own, one among many. -/
def Receiver.atCell (i : Nat) (receiver : Receiver ρ ε) : Receiver (σ × (Nat → ρ)) ε := fun access p =>
  ((receiver access (p.2 i)).1, (p.1, fun j => if j = i then (receiver access (p.2 i)).2 else p.2 j))

/-- The stages of a plan, which gives the receiver of each stage that reports references. -/
def Stage.laid : Nat → List (Option (Receiver ρ ε)) → List (Stage (σ × (Nat → ρ)) ε)
  | _, [] => []
  | i, none :: rest => .forward :: laid (i + 1) rest
  | i, some receiver :: rest => .dependency (receiver.atCell i) :: laid (i + 1) rest

/-- The chain with the planned stages before the sink. -/
def Chain.planned (plan : List (Option (Receiver ρ ε))) (sink : Sink σ ε) : Chain (σ × (Nat → ρ)) ε :=
  ⟨Stage.laid 0 plan, sink.beside⟩

/-- What a stage of a plan makes of a reference. -/
def Receiver.after (access : Access) (t : ρ) : Option (Receiver ρ ε) → ρ
  | some receiver => (receiver access t).2
  | none => t

theorem Stage.forM_laid {plan : List (Option (Receiver ρ ε))}
    (hplan : ∀ receiver, some receiver ∈ plan → receiver.NeverFails) (i : Nat) (access : Access) (s : σ)
    (cells : Nat → ρ) :
    ∃ after, (Stage.laid i plan).forM (Stage.report access) (s, cells) = (.ok (), (s, after)) ∧
      (∀ j < i, after j = cells j) ∧ ∀ k, after (i + k) = Receiver.after access (cells (i + k)) plan[k]?.join := by
  induction plan generalizing i cells with
  | nil => exact ⟨cells, rfl, fun _ _ => rfl, fun _ => rfl⟩
  | cons first rest ih =>
    have hrest : ∀ receiver, some receiver ∈ rest → receiver.NeverFails := fun r hr => hplan r (by simp [hr])
    cases first with
    | none =>
      obtain ⟨after, h, hbefore, hafter⟩ := ih hrest (i + 1) cells
      refine ⟨after, h, fun j hj => hbefore j (by omega), fun k => ?_⟩
      cases k with
      | zero => exact hbefore i (by omega)
      | succ k =>
        have hk := hafter k
        rwa [show i + 1 + k = i + (k + 1) by omega] at hk
    | some receiver =>
      let next : Nat → ρ := fun j => if j = i then (receiver access (cells i)).2 else cells j
      have hfirst : Stage.report access (.dependency (receiver.atCell i)) (s, cells) = (.ok (), (s, next)) := by
        have hr := hplan receiver (by simp) access (cells i)
        simp [Stage.report, Receiver.atCell, hr, next]
      obtain ⟨after, h, hbefore, hafter⟩ := ih hrest (i + 1) next
      refine ⟨after, (Run.bind_ok hfirst).trans h, fun j hj => ?_, fun k => ?_⟩
      · rw [hbefore j (by omega)]
        exact if_neg (by omega)
      · cases k with
        | zero =>
          rw [Nat.add_zero, hbefore i (by omega)]
          exact if_pos rfl
        | succ k =>
          have hk := hafter k
          rw [show i + 1 + k = i + (k + 1) by omega] at hk
          rw [hk, show next (i + (k + 1)) = cells (i + (k + 1)) from if_neg (by omega)]
          rfl

namespace Chain

variable {plan : List (Option (Receiver ρ ε))}

theorem planned_report (hplan : ∀ receiver, some receiver ∈ plan → receiver.NeverFails) (sink : Sink σ ε)
    (access : Access) (s : σ) (cells : Nat → ρ) :
    (planned plan sink).report access (s, cells) =
      (.ok (), (s, fun i => Receiver.after access (cells i) plan[i]?.join)) := by
  obtain ⟨after, h, -, hafter⟩ := Stage.forM_laid hplan 0 access s cells
  have heq : after = fun i => Receiver.after access (cells i) plan[i]?.join := by
    funext i
    simpa using hafter i
  rw [← heq]
  exact h

theorem planned_accompanies (hplan : ∀ receiver, some receiver ∈ plan → receiver.NeverFails) (sink : Sink σ ε) :
    (planned plan sink).Accompanies sink :=
  ⟨rfl, fun access s cells => ⟨_, planned_report hplan sink access s cells⟩⟩

end Chain

/-- Stages that never fail change nothing of what a sink hears, and they are given the references of what it hears. -/
theorem hearAll_beside {report : Access → Visit (Logged σ Event × τ) ε Unit} {step : Access → τ → τ}
    (hreport : ∀ access p t, report access (p, t) = (.ok (), (p, step access t))) (sink : Sink σ ε) (owner : String)
    (cues : List Cue) (m : Option String) (p : Logged σ Event) (t : τ) :
    ∃ told,
      (hearAll (fun _ => pure ()) (Sink.tell (Run.logged sink)) owner cues m p).2.log = p.log ++ told ∧
      hearAll report (Sink.tell (Sink.beside (Run.logged sink))) owner cues m (p, t) =
        ((hearAll (fun _ => pure ()) (Sink.tell (Run.logged sink)) owner cues m p).1,
          ((hearAll (fun _ => pure ()) (Sink.tell (Run.logged sink)) owner cues m p).2,
            (Event.edges owner m told).foldl (fun t access => step access t) t)) := by
  induction cues generalizing m p t with
  | nil => exact ⟨[], by simp [hearAll], rfl⟩
  | cons cue cues ih =>
    cases cue with
    | fault place fault => exact ⟨[], by simp [hearAll, hear, Run.bind_apply], rfl⟩
    | event place event =>
      let tell : Event → Visit (Logged σ Event) ε Unit := Sink.tell (Run.logged sink)
      let next : τ := (event.access? owner m).toList.foldl (fun t access => step access t) t
      have hpass : event.pass report (Sink.tell (Sink.beside (Run.logged sink))) owner m (p, t) =
          ((tell event p).1, ((tell event p).2, next)) := by
        have hbeside (t : τ) : Sink.tell (Sink.beside (Run.logged sink)) event (p, t) =
            ((tell event p).1, ((tell event p).2, t)) := by
          rw [Sink.tell_beside]
          rfl
        cases ha : event.access? owner m with
        | none => simp [Event.pass, ha, next, hbeside]
        | some access => simp [Event.pass, ha, next, Run.bind_ok (hreport access p t), hbeside]
      have hlog : (tell event p).2.log = p.log ++ [event] := by
        simp [tell, Sink.tell_apply, Run.logged]
      rcases htell : tell event p with ⟨error | _, p'⟩ <;> rw [htell] at hpass hlog
      · have halone : event.pass (fun _ => pure ()) tell owner m p = (.error error, p') := by
          rw [Event.pass_unreported, htell]
        refine ⟨[event], ?_, ?_⟩
        · rw [hearAll_cons, Run.bind_error (hear_of_pass_error place halone)]
          exact hlog
        · rw [hearAll_cons, hearAll_cons, Run.bind_error (hear_of_pass_error place halone),
            Run.bind_error (hear_of_pass_error place hpass), Event.edges_cons, Event.edges, List.append_nil]
      · have halone : event.pass (fun _ => pure ()) tell owner m p = (.ok (), p') := by
          rw [Event.pass_unreported, htell]
        obtain ⟨told, htold, hrest⟩ := ih (event.methodAfter m) p' next
        refine ⟨event :: told, ?_, ?_⟩
        · rw [hearAll_cons, Run.bind_ok (hear_of_pass_ok place halone), htold, hlog]
          simp
        · rw [hearAll_cons, hearAll_cons, Run.bind_ok (hear_of_pass_ok place halone),
            Run.bind_ok (hear_of_pass_ok place hpass), Event.edges_cons, List.foldl_append]
          exact hrest

theorem Sink.TakesAll.logged {sink : Sink σ ε} (h : sink.TakesAll) : Sink.TakesAll (Run.logged sink) := by
  refine ⟨fun header p q hp => ?_, fun decl p q hp => ?_⟩
  · exact h.1 header p.state _ (Prod.ext (Prod.mk.inj hp).1 rfl)
  · exact h.2 decl p.state _ (Prod.ext (Prod.mk.inj hp).1 rfl)

theorem Sink.TakesAll.beside {sink : Sink σ ε} (h : sink.TakesAll) : (sink.beside : Sink (σ × τ) ε).TakesAll := by
  refine ⟨fun header p q hp => ?_, fun decl p q hp => ?_⟩
  · exact h.1 header p.1 _ (Prod.ext (Prod.mk.inj hp).1 rfl)
  · exact h.2 decl p.1 _ (Prod.ext (Prod.mk.inj hp).1 rfl)

/-- Each cell ends as if its receiver had been given the references alone. -/
theorem Receiver.foldl_after (plan : List (Option (Receiver ρ ε))) (accesses : List Access) (cells : Nat → ρ)
    (i : Nat) :
    accesses.foldl (fun cells access i => Receiver.after access (cells i) plan[i]?.join) cells i =
      accesses.foldl (fun t access => Receiver.after access t plan[i]?.join) (cells i) := by
  induction accesses generalizing cells with
  | nil => rfl
  | cons access accesses ih => exact ih _

namespace ClassFile

variable {c : ClassFile}

theorem play_log_isPrefix {sink : Sink σ ε} {chain : Chain (Logged σ Event × τ) ε}
    (h : chain.Accompanies (Run.logged sink)) (hname : c.name ≠ "") (p : Logged σ Event) (t : τ) :
    (c.play chain (p, t)).2.1.log <+: (c.play (Chain.direct (Run.logged sink)) p).2.log := by
  rw [play_eq_perform, play_eq_perform, script, Chain.perform_cons, Chain.perform_cons]
  obtain ⟨after, _, p', t', ha, hb, rfl, hn⟩ | ⟨e, p', t', ha, hb⟩ := Chain.take_declare_shadows h hname p t
  · rw [Run.bind_ok ha, Run.bind_ok hb]
    exact Chain.perform_log_isPrefix h c.content_ofClass hn p' t'
  · simp only [Run.bind_error ha, Run.bind_error hb]
    exact List.prefix_refl _

/-- Behind any stages whose receivers never fail, a sink is told the first of the events that it is told when the class
is replayed to it alone. If it declines nothing, it is told all of them, with the same outcome, and every receiver is
given the references of these events, wherever its stage stands. -/
theorem play_planned (hname : c.name ≠ "") (sink : Sink σ ε) {plan : List (Option (Receiver ρ ε))}
    (hplan : ∀ receiver, some receiver ∈ plan → receiver.NeverFails) (s : σ) (cells : Nat → ρ) :
    let alone := c.play (Chain.direct (Run.logged sink)) ⟨s, []⟩
    let behind := c.play (Chain.planned plan (Run.logged sink)) (⟨s, []⟩, cells)
    behind.2.1.log <+: alone.2.log ∧
      (sink.TakesAll → behind.1 = alone.1 ∧ behind.2.1 = alone.2 ∧
        ∀ i receiver, plan[i]? = some (some receiver) →
          behind.2.2 i =
            (Event.edges c.name none alone.2.log).foldl (fun t access => (receiver access t).2) (cells i)) := by
  intro alone behind
  refine ⟨play_log_isPrefix (Chain.planned_accompanies hplan _) hname _ _, fun hsink => ?_⟩
  obtain ⟨told, hlog, hbeside⟩ :=
    hearAll_beside (Chain.planned_report hplan (Run.logged sink)) sink c.name c.script none ⟨s, []⟩ cells
  have halone : alone =
      ((hearAll (fun _ => pure ()) (Sink.tell (Run.logged sink)) c.name c.script none ⟨s, []⟩).1.map fun _ => (),
        (hearAll (fun _ => pure ()) (Sink.tell (Run.logged sink)) c.name c.script none ⟨s, []⟩).2) :=
    play_eq_hearAll (c := c) (Chain.direct (Run.logged sink)) hsink.logged nofun ⟨s, []⟩
  have hbehind : behind = (alone.1, (alone.2, (Event.edges c.name none alone.2.log).foldl
      (fun cells access i => Receiver.after access (cells i) plan[i]?.join) cells)) := by
    have h := play_eq_hearAll (Chain.planned plan (Run.logged sink)) hsink.logged.beside (fun _ => hname)
      (⟨s, []⟩, cells)
    rw [show (Chain.planned plan (Run.logged sink)).sink = Sink.beside (Run.logged sink) from rfl, hbeside] at h
    have htold : alone.2.log = told := by
      rw [halone]
      exact hlog
    rw [htold, halone]
    exact h
  refine ⟨by rw [hbehind], by rw [hbehind], fun i receiver hi => ?_⟩
  rw [hbehind]
  refine (Receiver.foldl_after plan _ cells i).trans ?_
  rw [hi]
  rfl

/-- A sink that fails at its sixth event has been told six, and the receivers before it have been given the calls. -/
theorem caller_play_planned :
    let sink : Sink Nat Unit := fun _ n => if n = 5 then (.error (.failed ()), n) else (.ok true, n + 1)
    let plan : List (Option (Receiver (List Access) Unit)) := [none, some .collect, none, some .collect]
    let calls : List Access := [⟨⟨"A", "f"⟩, ⟨"B", "f"⟩⟩, ⟨⟨"A", "f"⟩, ⟨"B", "f"⟩⟩]
    let behind := caller.play (Chain.planned plan (Run.logged sink)) (⟨0, []⟩, fun _ => [])
    behind.1 = .error ⟨some ("f", "()V"), .stage (.failed ())⟩ ∧ behind.2.1.log = callerEvents.take 6 ∧
      behind.2.2 1 = calls ∧ behind.2.2 3 = calls := by
  intro sink plan calls behind
  have hsink : sink.TakesAll := by
    constructor <;> intro _ n n' h <;> simp only [sink] at h <;> split at h <;> cases h
  have hplan : ∀ receiver, some receiver ∈ plan → receiver.NeverFails := by
    intro receiver hr
    obtain rfl : receiver = .collect := by simpa [plan] using hr
    exact fun _ _ => rfl
  have halone : caller.play (Chain.direct (Run.logged sink)) ⟨0, []⟩ =
      (.error ⟨some ("f", "()V"), .stage (.failed ())⟩, ⟨5, callerEvents.take 6⟩) := by cbv
  obtain ⟨-, h⟩ := play_planned (by decide : caller.name ≠ "") sink hplan 0 fun _ => []
  rw [halone] at h
  obtain ⟨houtcome, hstate, hcells⟩ := h hsink
  exact ⟨houtcome, congrArg Logged.log hstate, hcells 1 .collect rfl, hcells 3 .collect rfl⟩

end ClassFile
end Linkage
