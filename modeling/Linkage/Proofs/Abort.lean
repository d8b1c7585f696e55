import Linkage.Proofs.PassThrough

/-!
Where a replay through one reporting stage breaks off. A reference is reported before its instruction is passed on, so
a receiver that refuses one keeps the instruction from the sink, and a sink that fails at an instruction comes after
the report of its reference.
-/
namespace Linkage

variable {σ τ ε ρ : Type}

/-- What is taken without fail is logged. -/
theorem Run.forM_logged {ι : Type} {f : ι → Run σ ε Unit} {items : List ι} {s s' : σ}
    (h : items.forM f s = (.ok (), s')) (log : List ι) :
    items.forM (logged f) ⟨s, log⟩ = (.ok (), ⟨s', log ++ items⟩) := by
  induction items generalizing s log with
  | nil =>
    cases h
    simp [List.forM]
  | cons i items ih =>
    obtain ⟨_, s₁, hi, hrest⟩ := bind_eq_ok h
    have hl : logged f i ⟨s, log⟩ = (.ok (), ⟨s₁, log ++ [i]⟩) := by simp [logged, hi]
    refine (bind_ok hl).trans ?_
    rw [ih hrest]
    simp

namespace Event

variable {tell : Event → Visit σ ε Unit} {report : Access → Visit τ ε Unit} {owner : String} {m : Option String}
  {s s₁ s₂ : σ} {t t₁ t₂ : τ} {before : List Event} {event : Event} {error : StageError ε}

theorem follow_append (report : Access → Visit σ ε Unit) (first second : List Event) :
    follow report tell owner (first ++ second) m =
      follow report tell owner first m >>= follow report tell owner second :=
  List.foldlM_append

/-- Reports on the second part of the state and tells on the first. -/
def passBeside (report : Access → Visit τ ε Unit) (tell : Event → Visit σ ε Unit) (owner : String) (m : Option String)
    (event : Event) : Visit (σ × τ) ε Unit :=
  event.pass (fun access => Run.onSecond (report access)) (fun event => Run.onFirst (tell event)) owner m

def followBeside (report : Access → Visit τ ε Unit) (tell : Event → Visit σ ε Unit) (owner : String) :
    List Event → Option String → Visit (σ × τ) ε (Option String) :=
  follow (fun access => Run.onSecond (report access)) (fun event => Run.onFirst (tell event)) owner

/-- An event whose reference is taken is told. -/
theorem passBeside_of_report_ok (hreport : (event.access? owner m).toList.forM report t = (.ok (), t₁)) :
    event.passBeside report tell owner m (s, t) = ((tell event s).1, ((tell event s).2, t₁)) := by
  cases ha : event.access? owner m with
  | none =>
    rw [ha] at hreport
    cases hreport
    simp [passBeside, pass, ha, Run.onFirst]
  | some access =>
    rw [ha] at hreport
    obtain ⟨_, t', h, hpure⟩ := Run.bind_eq_ok hreport
    cases hpure
    have hr : (Run.onSecond (report access) : Visit (σ × τ) ε Unit) (s, t) = (.ok (), (s, t₁)) := by
      simp [Run.onSecond, h]
    simp [passBeside, pass, ha, Run.bind_ok hr, Run.onFirst]

/-- An event whose reference is refused is not told. -/
theorem passBeside_of_report_error {access : Access} (haccess : event.access? owner m = some access)
    (hrefuse : report access t = (.error error, t₁)) :
    event.passBeside report tell owner m (s, t) = (.error error, (s, t₁)) := by
  have hr : (Run.onSecond (report access) : Visit (σ × τ) ε Unit) (s, t) = (.error error, (s, t₁)) := by
    simp [Run.onSecond, hrefuse]
  rw [passBeside, pass, haccess]
  exact Run.bind_error hr

/-- Events are followed to their end if their references are taken and they are. -/
theorem followBeside_eq_ok (htell : before.forM tell s = (.ok (), s₁))
    (hreport : (edges owner m before).forM report t = (.ok (), t₁)) :
    followBeside report tell owner before m (s, t) = (.ok (before.foldl methodAfter m), (s₁, t₁)) := by
  induction before generalizing m s t with
  | nil =>
    cases htell
    cases hreport
    rfl
  | cons event before ih =>
    rw [edges_cons] at hreport
    obtain ⟨_, t', hfirst, hrest⟩ := Run.bind_eq_ok ((congrFun List.forM_append _).symm.trans hreport)
    obtain ⟨_, s', hevent, hevents⟩ := Run.bind_eq_ok htell
    have hpass : event.passBeside report tell owner m (s, t) = (.ok (), (s', t')) := by
      rw [passBeside_of_report_ok hfirst, hevent]
    rw [followBeside, follow_cons]
    exact (Run.bind_ok hpass).trans (ih hevents hrest)

theorem followBeside_eq_error (after : List Event) {m' : Option String} {p q r : σ × τ}
    (hbefore : followBeside report tell owner before m p = (.ok m', q))
    (hpass : event.passBeside report tell owner m' q = (.error error, r)) :
    followBeside report tell owner (before ++ event :: after) m p = (.error error, r) := by
  rw [followBeside, follow_append]
  refine (Run.bind_ok hbefore).trans ?_
  rw [follow_cons]
  exact Run.bind_error hpass

/-- A sink that fails comes after the report of the reference. -/
theorem followBeside_of_tell_error (after : List Event) (htell : before.forM tell s = (.ok (), s₁))
    (hfail : tell event s₁ = (.error error, s₂))
    (hreport : (edges owner m (before ++ [event])).forM report t = (.ok (), t₁)) :
    followBeside report tell owner (before ++ event :: after) m (s, t) = (.error error, (s₂, t₁)) := by
  rw [edges_append, edges_cons, edges, List.append_nil] at hreport
  obtain ⟨_, t', hbefore, hevent⟩ := Run.bind_eq_ok ((congrFun List.forM_append _).symm.trans hreport)
  refine followBeside_eq_error after (followBeside_eq_ok htell hbefore) ?_
  rw [passBeside_of_report_ok hevent, hfail]

/-- A receiver that refuses a reference comes before its instruction is told. -/
theorem followBeside_of_report_error {access : Access} (after : List Event)
    (htell : before.forM tell s = (.ok (), s₁)) (hreport : (edges owner m before).forM report t = (.ok (), t₁))
    (haccess : event.access? owner (before.foldl methodAfter m) = some access)
    (hrefuse : report access t₁ = (.error error, t₂)) :
    followBeside report tell owner (before ++ event :: after) m (s, t) = (.error error, (s₁, t₂)) :=
  followBeside_eq_error after (followBeside_eq_ok htell hreport) (passBeside_of_report_error haccess hrefuse)

/-- Every reference is made by one of the events. -/
theorem exists_event_of_edge {events : List Event} {j : Nat} {access : Access}
    (h : (edges owner m events)[j]? = some access) :
    ∃ before event after, events = before ++ event :: after ∧
      edges owner m before = (edges owner m events).take j ∧
      event.access? owner (before.foldl methodAfter m) = some access := by
  induction events generalizing m j with
  | nil => simp [edges] at h
  | cons first events ih =>
    rw [edges_cons] at h
    cases ha : first.access? owner m with
    | none =>
      rw [ha] at h
      obtain ⟨before, event, after, rfl, hedges, haccess⟩ := ih h
      refine ⟨first :: before, event, after, rfl, ?_, haccess⟩
      simpa [edges_cons, ha] using hedges
    | some reported =>
      rw [ha] at h
      cases j with
      | zero => exact ⟨[], first, events, rfl, by simp [edges], by simpa [ha] using h⟩
      | succ j =>
        obtain ⟨before, event, after, rfl, hedges, haccess⟩ := ih (by simpa using h)
        refine ⟨first :: before, event, after, rfl, ?_, haccess⟩
        simpa [edges_cons, ha] using hedges

end Event

/-- The receiver on the second part of the state. -/
def Receiver.beside (receiver : Receiver ρ ε) : Receiver (σ × ρ) ε := fun access => Run.onSecond (receiver access)

/-- The chain with one stage that reports references. -/
def Chain.watched (receiver : Receiver ρ ε) (sink : Sink σ ε) : Chain (σ × ρ) ε :=
  ⟨[.dependency receiver.beside], sink.beside⟩

theorem Sink.tell_logged (sink : Sink σ ε) : Sink.tell (Run.logged sink) = Run.logged sink.tell := by
  funext event p
  simp [Sink.tell_apply, Run.logged]

namespace ClassFile

variable {c : ClassFile} {events : List Event}

theorem play_watched (hname : c.name ≠ "") (hrecords : c.Records events) (receiver : Receiver ρ ε) {sink : Sink σ ε}
    (hsink : sink.TakesAll) {p : σ × ρ} {error : StageError ε} {q : σ × ρ}
    (h : Event.followBeside receiver sink.tell c.name events none p = (.error error, q)) :
    ∃ place, c.play (Chain.watched receiver sink) p = (.error ⟨place, .stage error⟩, q) := by
  have hplay := play_eq_hearAll (Chain.watched receiver sink) hsink.beside (fun _ => hname) p
  have hreport : (Chain.watched receiver sink).report = fun access => Run.onSecond (receiver access) := by
    funext access
    simp [Chain.watched, Chain.report, Stage.report, Receiver.beside]
  have htell : (Chain.watched receiver sink).sink.tell = fun event => Run.onFirst (sink.tell event) :=
    funext sink.tell_beside
  obtain ⟨place, hp⟩ := hearAll_eq_follow (fun access => Run.onSecond (receiver access))
    (fun event => Run.onFirst (sink.tell event)) c.name (records_iff.mp hrecords) none p
  rw [hreport, htell, hp, Visit.within] at hplay
  refine ⟨place, ?_⟩
  rw [hplay, show Event.follow _ _ _ _ _ _ = _ from h]
  rfl

section

variable {sink : Sink σ ε} {receiver : Receiver ρ ε} {s s₁ s₂ : σ} {t t₁ t₂ : ρ} {before after : List Event}
  {event : Event} {error : StageError ε}

theorem forM_tell_logged (htell : before.forM sink.tell s = (.ok (), s₁)) :
    before.forM (Sink.tell (Run.logged sink)) ⟨s, []⟩ = (.ok (), ⟨s₁, before⟩) := by
  rw [Sink.tell_logged]
  exact Run.forM_logged htell []

theorem play_watched_of_sink_error (hname : c.name ≠ "") (hrecords : c.Records (before ++ event :: after))
    (hsink : sink.TakesAll) (htell : before.forM sink.tell s = (.ok (), s₁))
    (hfail : sink event s₁ = (.error error, s₂))
    (hreport : (Event.edges c.name none (before ++ [event])).forM receiver t = (.ok (), t₁)) :
    ∃ place, c.play (Chain.watched (Run.logged receiver) (Run.logged sink)) (⟨s, []⟩, ⟨t, []⟩) =
      (.error ⟨place, .stage error⟩,
        (⟨s₂, before ++ [event]⟩, ⟨t₁, Event.edges c.name none (before ++ [event])⟩)) := by
  have hfails : Sink.tell (Run.logged sink) event ⟨s₁, before⟩ = (.error error, ⟨s₂, before ++ [event]⟩) := by
    rw [Sink.tell_apply, Run.logged, hfail]
    rfl
  exact play_watched hname hrecords _ hsink.logged
    (Event.followBeside_of_tell_error after (forM_tell_logged htell) hfails (Run.forM_logged hreport []))

theorem play_watched_of_receiver_error {access : Access} (hname : c.name ≠ "")
    (hrecords : c.Records (before ++ event :: after)) (hsink : sink.TakesAll)
    (htell : before.forM sink.tell s = (.ok (), s₁))
    (hreport : (Event.edges c.name none before).forM receiver t = (.ok (), t₁))
    (haccess : event.access? c.name (before.foldl Event.methodAfter none) = some access)
    (hrefuse : receiver access t₁ = (.error error, t₂)) :
    ∃ place, c.play (Chain.watched (Run.logged receiver) (Run.logged sink)) (⟨s, []⟩, ⟨t, []⟩) =
      (.error ⟨place, .stage error⟩, (⟨s₁, before⟩, ⟨t₂, Event.edges c.name none before ++ [access]⟩)) := by
  have hrefuses : Run.logged receiver access ⟨t₁, Event.edges c.name none before⟩ =
      (.error error, ⟨t₂, Event.edges c.name none before ++ [access]⟩) := by
    rw [Run.logged, hrefuse]
  exact play_watched hname hrecords _ hsink.logged
    (Event.followBeside_of_report_error after (forM_tell_logged htell) (Run.forM_logged hreport []) haccess hrefuses)

end

/-- A class that can be recorded is replayed through one reporting stage to a sink that declines nothing. If the sink
fails at an event, it has been told the events up to this one, and the receiver has been given their references. If the
receiver refuses a reference, it has been given the references up to this one, and the sink has been told the events
before the instruction that makes it. The error of the replay is the one that broke it off. -/
theorem play_watched_abort (hname : c.name ≠ "") (hrecords : c.Records events) {sink : Sink σ ε}
    (hsink : sink.TakesAll) (receiver : Receiver ρ ε) (s : σ) (t : ρ) :
    let edges := Event.edges c.name none
    let outcome := c.play (Chain.watched (Run.logged receiver) (Run.logged sink)) (⟨s, []⟩, ⟨t, []⟩)
    (∀ k event s₁ s₂ t₁ error, events[k]? = some event →
        (events.take k).forM sink.tell s = (.ok (), s₁) → sink event s₁ = (.error error, s₂) →
        (edges (events.take (k + 1))).forM receiver t = (.ok (), t₁) →
        ∃ place, outcome =
          (.error ⟨place, .stage error⟩, (⟨s₂, events.take (k + 1)⟩, ⟨t₁, edges (events.take (k + 1))⟩))) ∧
      ∀ j access t₁ t₂ error, (edges events)[j]? = some access →
        ((edges events).take j).forM receiver t = (.ok (), t₁) → receiver access t₁ = (.error error, t₂) →
        ∃ i < events.length, edges (events.take i) = (edges events).take j ∧
          edges (events.take (i + 1)) = (edges events).take (j + 1) ∧
          ∀ s₁, (events.take i).forM sink.tell s = (.ok (), s₁) →
            ∃ place, outcome =
              (.error ⟨place, .stage error⟩, (⟨s₁, events.take i⟩, ⟨t₂, (edges events).take (j + 1)⟩)) := by
  intro edges outcome
  refine ⟨fun k event s₁ s₂ t₁ error hk htell hfail hreport => ?_, fun j access t₁ t₂ error hj hreport hrefuse => ?_⟩
  · have htake : events.take (k + 1) = events.take k ++ [event] := by rw [List.take_add_one, hk, Option.toList_some]
    have hall : events = events.take k ++ event :: events.drop (k + 1) := by
      rw [List.append_cons, ← htake, List.take_append_drop]
    rw [htake] at hreport ⊢
    exact play_watched_of_sink_error hname (hall ▸ hrecords) hsink htell hfail hreport
  · obtain ⟨before, event, after, rfl, hedges, haccess⟩ := Event.exists_event_of_edge hj
    have htake : (before ++ event :: after).take before.length = before := List.take_left' rfl
    have htake_succ : (before ++ event :: after).take (before.length + 1) = before ++ [event] := by
      rw [List.append_cons]
      exact List.take_left' (by simp)
    have hedges_succ : (edges (before ++ event :: after)).take (j + 1) = edges before ++ [access] := by
      rw [List.take_add_one, hj]
      exact congrArg (· ++ [access]) hedges.symm
    rw [← hedges] at hreport
    refine ⟨before.length, by simp, by rw [htake]; exact hedges, ?_, fun s₁ htell => ?_⟩
    · rw [htake_succ, hedges_succ]
      simp only [edges, Event.edges_append, Event.edges_cons, haccess, Event.edges, Option.toList_some, List.append_nil]
    · rw [htake] at htell
      rw [htake, hedges_succ]
      exact play_watched_of_receiver_error hname hrecords hsink htell hreport haccess hrefuse

end ClassFile

/-- A sink that wants the given number of events and fails at the next one. -/
def Sink.upTo (limit : Nat) : Sink Nat String := fun _ n =>
  if n = limit then (.error (.failed "full"), n) else (.ok true, n + 1)

theorem Sink.upTo_takesAll (limit : Nat) : (Sink.upTo limit).TakesAll := by
  constructor <;> intro _ n n' h <;> simp only [Sink.upTo] at h <;> split at h <;> cases h

/-- A receiver that takes the given number of references and refuses the next one. -/
def Receiver.upTo (limit : Nat) : Receiver Nat String := fun _ n =>
  if n = limit then (.error (.failed "enough"), n) else (.ok (), n + 1)

namespace ClassFile

/-- The sink fails at the second call, of which the receiver has been told; or the receiver refuses that call, of which
the sink is not told. -/
theorem caller_play_watched_abort :
    let call : Access := ⟨⟨"A", "f"⟩, ⟨"B", "f"⟩⟩
    (∃ place, caller.play (Chain.watched (Run.logged (Receiver.upTo 10)) (Run.logged (Sink.upTo 5)))
          (⟨0, []⟩, ⟨0, []⟩) =
        (.error ⟨place, .stage (.failed "full")⟩, (⟨5, callerEvents.take 6⟩, ⟨2, [call, call]⟩))) ∧
      ∃ place, caller.play (Chain.watched (Run.logged (Receiver.upTo 1)) (Run.logged (Sink.upTo 10)))
          (⟨0, []⟩, ⟨0, []⟩) =
        (.error ⟨place, .stage (.failed "enough")⟩, (⟨5, callerEvents.take 5⟩, ⟨1, [call, call]⟩)) := by
  intro call
  have hedges : Event.edges "A" none callerEvents = [call, call] := by decide
  constructor
  · obtain ⟨h, -⟩ := play_watched_abort (by decide) caller_records (Sink.upTo_takesAll 5) (Receiver.upTo 10) 0 0
    have hreported : Event.edges caller.name none (callerEvents.take 6) = [call, call] := by decide
    have h := h 5 (.code (.methodInsn 184 "B" "f" "()V" false)) 5 5 2 (.failed "full") rfl (by cbv) (by cbv)
    rw [hreported] at h
    exact h (by cbv)
  · obtain ⟨-, h⟩ := play_watched_abort (by decide) caller_records (Sink.upTo_takesAll 10) (Receiver.upTo 1) 0 0
    rw [show caller.name = "A" from rfl, hedges] at h
    obtain ⟨i, hi, hbefore, hafter, h⟩ := h 1 call 1 1 (.failed "enough") rfl (by cbv) (by cbv)
    have hfifth : ∀ i < 10, Event.edges "A" none (callerEvents.take i) = [call] →
        Event.edges "A" none (callerEvents.take (i + 1)) = [call, call] → i = 5 := by decide
    obtain rfl := hfifth i hi hbefore hafter
    exact h 5 (by cbv)

end ClassFile

end Linkage
