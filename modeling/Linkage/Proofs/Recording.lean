import Mathlib
import Linkage.Visit.Recorder
import Linkage.Proofs.Hearing

/-!
Classes that can be replayed to the end. Their scripts hold no fault, so that hearing one is following its events, and
a recorder that refuses nothing keeps exactly these.
-/
namespace Linkage

variable {σ ε : Type}

def Cue.event? : Cue → Option Event
  | .event _ e => some e
  | .fault _ _ => none

/-- Passes one event after the other; the answer is the method that follows. -/
def Event.follow (report : Access → Visit σ ε Unit) (tell : Event → Visit σ ε Unit) (owner : String)
    (events : List Event) (m : Option String) : Visit σ ε (Option String) :=
  events.foldlM (fun m event => do
    event.pass report tell owner m
    return event.methodAfter m) m

theorem Event.follow_cons (report : Access → Visit σ ε Unit) (tell : Event → Visit σ ε Unit) (owner : String)
    (event : Event) (events : List Event) (m : Option String) :
    Event.follow report tell owner (event :: events) m = (do
      event.pass report tell owner m
      Event.follow report tell owner events (event.methodAfter m)) := by
  simp [Event.follow]

/-- Cues without a fault are heard as their events are followed; where that fails, some method may be blamed. -/
theorem hearAll_eq_follow (report : Access → Visit σ ε Unit) (tell : Event → Visit σ ε Unit) (owner : String)
    {cues : List Cue} {events : List Event} (h : cues.map Cue.event? = events.map some) (m : Option String) (s : σ) :
    ∃ place, hearAll report tell owner cues m s = Visit.within place (Event.follow report tell owner events m) s := by
  induction cues generalizing events m s with
  | nil =>
    obtain rfl : events = [] := by simpa using h.symm
    exact ⟨none, rfl⟩
  | cons cue cues ih =>
    cases events with
    | nil => simp at h
    | cons event events =>
      obtain ⟨hcue, hcues⟩ := List.cons.inj h
      cases cue with
      | fault place fault => simp [Cue.event?] at hcue
      | event place e =>
        obtain rfl : e = event := Option.some.inj hcue
        rw [hearAll_cons, Event.follow_cons]
        rcases hp : e.pass report tell owner m s with ⟨error | _, s'⟩
        · refine ⟨place, ?_⟩
          rw [Run.bind_error (hear_of_pass_error place hp), Visit.within, Run.bind_error hp]
        · obtain ⟨after, ha⟩ := ih hcues (e.methodAfter m) s'
          refine ⟨after, ?_⟩
          rw [Run.bind_ok (hear_of_pass_ok place hp), Visit.within, Run.bind_ok hp]
          exact ha

/-- What is heard to the end holds no fault. -/
theorem exists_events_of_hearAll_eq_ok {report : Access → Visit σ ε Unit} {tell : Event → Visit σ ε Unit}
    {owner : String} {cues : List Cue} {m m' : Option String} {s s' : σ}
    (h : hearAll report tell owner cues m s = (.ok m', s')) :
    ∃ events : List Event, cues.map Cue.event? = events.map some := by
  induction cues generalizing m s with
  | nil => exact ⟨[], rfl⟩
  | cons cue cues ih =>
    rw [hearAll_cons] at h
    rcases hc : hear report tell owner m cue s with ⟨error | after, s₁⟩
    · rw [Run.bind_error hc] at h
      cases h
    · rw [Run.bind_ok hc] at h
      obtain ⟨events, he⟩ := ih h
      cases cue with
      | fault place fault => cases hc
      | event place e => exact ⟨e :: events, by simp [Cue.event?, he]⟩

namespace Recorder

theorem sink_apply (refusal : ε) (event : Event) (r : Recorder) :
    sink { refusal } event r = (.ok true, { r with events := r.events.push event }) := by
  cases event <;> rfl

theorem tell_apply (refusal : ε) (event : Event) (r : Recorder) :
    Sink.tell (sink { refusal }) event r = (.ok (), { r with events := r.events.push event }) := by
  rw [Sink.tell, Run.bind_ok (sink_apply refusal event r), Run.pure_apply]

theorem sink_takesAll (refusal : ε) : Sink.TakesAll (sink { refusal }) := by
  constructor <;> intro _ s s' h <;> rw [sink_apply] at h <;> cases h

/-- A recorder that refuses nothing keeps the events that it follows. -/
theorem follow_eq_ok (refusal : ε) (owner : String) (events : List Event) (m : Option String) (r : Recorder) :
    ∃ m', Event.follow (fun _ => pure ()) (Sink.tell (sink { refusal })) owner events m r =
      (.ok m', { r with events := r.events ++ events }) := by
  induction events generalizing m r with
  | nil => exact ⟨m, by simp [Event.follow]⟩
  | cons event events ih =>
    have hp : event.pass (fun _ => pure ()) (Sink.tell (sink { refusal })) owner m r =
        (.ok (), { r with events := r.events.push event }) := by
      rw [Event.pass_unreported, tell_apply]
    obtain ⟨m', h⟩ := ih (event.methodAfter m) { r with events := r.events.push event }
    exact ⟨m', by rw [Event.follow_cons, Run.bind_ok hp, h]; simp⟩

end Recorder

/-- A replay of the class to a recorder that refuses nothing succeeds and leaves these events. -/
def ClassFile.Records (c : ClassFile) (events : List Event) : Prop :=
  ∃ r, c.play ⟨[], Recorder.sink { refusal := () }⟩ {} = (.ok (), r) ∧ r.events.toList = events

/-- What is recorded is the script, if it holds no fault. -/
theorem ClassFile.records_iff {c : ClassFile} {events : List Event} :
    c.Records events ↔ c.script.map Cue.event? = events.map some := by
  let chain : Chain Recorder Unit := ⟨[], Recorder.sink { refusal := () }⟩
  have hplay := play_eq_hearAll (c := c) chain (Recorder.sink_takesAll ()) nofun {}
  have hfollow (told : List Event) (h : c.script.map Cue.event? = told.map some) :
      c.play chain {} = (.ok (), { events := ⟨told⟩ }) := by
    obtain ⟨place, hp⟩ := hearAll_eq_follow chain.report chain.sink.tell c.name h none {}
    obtain ⟨m', hf⟩ := Recorder.follow_eq_ok () c.name told none {}
    have hw : hearAll chain.report chain.sink.tell c.name c.script none {} = (.ok m', { events := ⟨told⟩ }) := by
      rw [hp, Visit.within, show Event.follow chain.report chain.sink.tell c.name told none {} = _ from hf]
      simp
    rw [hplay, hw]
    rfl
  constructor
  · rintro ⟨r, h, rfl⟩
    rcases hh : hearAll chain.report chain.sink.tell c.name c.script none {} with ⟨error | m', r'⟩
    · rw [hplay, hh] at h
      cases h
    · obtain ⟨told, ht⟩ := exists_events_of_hearAll_eq_ok hh
      rw [hfollow told ht] at h
      cases h
      exact ht
  · intro h
    exact ⟨_, hfollow events h, rfl⟩

namespace ClassFile

/-- A class `A` with one method, which calls `B.f`, a method of the root class and `B.f` again. -/
def caller : ClassFile where
  header := ⟨52, 33, "A", "", "", []⟩
  source := ""
  fields := []
  methods := [⟨⟨9, "f", "()V", "", []⟩, some ⟨1, 0, [184, 0, 8, 184, 0, 12, 184, 0, 8, 177], [], []⟩⟩]
  attributes := []
  pool := ⟨#[none, some (.utf8 "A"), some (.type 1), some (.utf8 "B"), some (.type 3), some (.utf8 "f"),
    some (.utf8 "()V"), some (.nameAndType 5 6), some (.member .method 4 7), some (.utf8 "Code"),
    some (.utf8 "java/lang/Object"), some (.type 10), some (.member .method 11 7)], #[]⟩

def callerEvents : List Event :=
  [.declare (some caller.header), .method ⟨9, "f", "()V", "", []⟩, .code .start,
    .code (.methodInsn 184 "B" "f" "()V" false), .code (.methodInsn 184 "java/lang/Object" "f" "()V" false),
    .code (.methodInsn 184 "B" "f" "()V" false), .code (.insn 177), .code (.maxs 1 0), .code .finish,
    .member .finish]

theorem caller_records : caller.Records callerEvents := ⟨⟨⟨callerEvents⟩, #[]⟩, by cbv, rfl⟩

end ClassFile
end Linkage
