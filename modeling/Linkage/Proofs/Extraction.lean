import Linkage.Extract
import Linkage.Proofs.Recording

/-! The references of a class are the ones that its recorded events make, in program order. -/
namespace Linkage

variable {σ ε : Type}

/-- Where nothing is told, following the events is reporting their references. -/
theorem Event.follow_silent (report : Access → Visit σ ε Unit) (owner : String) (events : List Event)
    (m : Option String) :
    Event.follow report (fun _ => pure ()) owner events m = (do
      (Event.edges owner m events).forM report
      return events.foldl Event.methodAfter m) := by
  induction events generalizing m with
  | nil => rfl
  | cons event events ih =>
    rw [Event.follow_cons, ih, Event.edges_cons]
    cases ha : event.access? owner m <;> simp [Event.pass, ha]

theorem Sink.discard_silent : (Sink.discard : Sink σ ε).Silent := by
  intro event s
  cases event
  · exact ⟨true, rfl⟩
  all_goals exact ⟨false, rfl⟩

/-- Lists the references. -/
def Receiver.collect : Receiver (List Access) ε := fun access => modify (· ++ [access])

/-- A receiver that takes every reference. -/
def Receiver.NeverFails (receiver : Receiver σ ε) : Prop := ∀ access s, (receiver access s).1 = .ok ()

theorem Receiver.NeverFails.forM_apply {receiver : Receiver σ ε} (h : receiver.NeverFails) (accesses : List Access)
    (s : σ) : accesses.forM receiver s = (.ok (), accesses.foldl (fun s access => (receiver access s).2) s) := by
  induction accesses generalizing s with
  | nil => rfl
  | cons access accesses ih =>
    have ha : receiver access s = (.ok (), (receiver access s).2) := Prod.ext (h access s) rfl
    exact (Run.bind_ok ha).trans (ih _)

theorem ClassFile.references_eq_play (c : ClassFile) (receiver : Receiver σ ε) (s : σ) :
    c.references receiver s =
      match c.play ⟨[.dependency receiver], Sink.discard⟩ s with
      | (.ok (), s') => (.ok (), s')
      | (.error error, s') => (.error (.replay c.name error), s') := by
  rw [references, play]
  rcases c.replay _ ([], s) with ⟨error | _, memo, s'⟩ <;> rfl

/-- Whatever the receiver, the references are handed to it in the order of the recorded events. -/
theorem ClassFile.references_eq_forM {c : ClassFile} (hname : c.name ≠ "") {events : List Event}
    (hrecords : c.Records events) (receiver : Receiver σ ε) (s : σ) :
    ∃ place, c.references receiver s =
      match (Event.edges c.name none events).forM receiver s with
      | (.ok (), s') => (.ok (), s')
      | (.error error, s') => (.error (.replay c.name ⟨place, .stage error⟩), s') := by
  let chain : Chain σ ε := ⟨[.dependency receiver], Sink.discard⟩
  have hplay := play_eq_hearAll_silent chain rfl Sink.discard_silent hname s
  obtain ⟨place, hp⟩ := hearAll_eq_follow chain.report (fun _ => pure ()) c.name (records_iff.mp hrecords) none s
  have hreport : chain.report = receiver := by
    funext access
    simp [chain, Chain.report, Stage.report]
  rw [hp, hreport, Event.follow_silent, Visit.within, Run.bind_apply] at hplay
  refine ⟨place, ?_⟩
  rw [references_eq_play, hplay]
  rcases (Event.edges c.name none events).forM receiver s with ⟨error | _, s'⟩ <;> rfl

/-- The stage that reports references takes no class without a name. -/
theorem ClassFile.name_ne_of_references_eq_ok {c : ClassFile} {receiver : Receiver σ ε} {s s' : σ}
    (h : c.references receiver s = (.ok (), s')) : c.name ≠ "" := by
  intro hname
  have hdeclare : Replay.visit none (Chain.declare ⟨[.dependency receiver], Sink.discard⟩ (some c.header)) ([], s) =
      (.error ⟨none, .stage .undeclaredClass⟩, ([], s)) := by
    have hheader : Chain.declare.name (some c.header) = "" := hname
    simp [Replay.visit, Chain.declare, Chain.declare.go, hheader]
  have hreplay : c.replay ⟨[.dependency receiver], Sink.discard⟩ ([], s) = _ := Run.bind_error hdeclare
  rw [references, hreplay] at h
  cases h

/-- What is collected of a class is the references of its recorded events. -/
theorem ClassFile.exists_records_of_collect_eq_ok {c : ClassFile} {accesses : List Access}
    (h : c.collect = .ok accesses) : ∃ events, c.Records events ∧ accesses = Event.edges c.name none events := by
  let receiver : Receiver (Array Access) Empty := fun access => modify (·.push access)
  rcases hr : c.references receiver #[] with ⟨error | _, found⟩
  · rw [collect, hr] at h
    cases h
  · have hfound : found.toList = accesses := by
      rw [collect, hr] at h
      exact Except.ok.inj h
    have hname := name_ne_of_references_eq_ok hr
    let chain : Chain (Array Access) Empty := ⟨[.dependency receiver], Sink.discard⟩
    have hplay := play_eq_hearAll_silent chain rfl Sink.discard_silent hname #[]
    rcases hheard : hearAll chain.report (fun _ => pure ()) c.name c.script none #[] with ⟨error | m, s⟩
    · rw [references_eq_play, hplay, hheard] at hr
      cases hr
    · obtain ⟨events, hevents⟩ := exists_events_of_hearAll_eq_ok hheard
      have hrecords : c.Records events := records_iff.mpr hevents
      obtain ⟨place, href⟩ := references_eq_forM hname hrecords receiver #[]
      rw [hr, Receiver.NeverFails.forM_apply (fun _ _ => rfl)] at href
      have hpush : found = (Event.edges c.name none events).foldl Array.push #[] := congrArg Prod.snd href
      exact ⟨events, hrecords, by rw [← hfound, hpush]; simp⟩

/-- A class whose replay can be recorded is read and named, and a receiver that takes every reference gets the ones
that the recorded events make, in their order; none of them leads to the root class. -/
theorem ClassFile.parse_references_eq_edges {data : Bytes} {c : ClassFile} {events : List Event}
    (hparse : ClassFile.parse data = .ok c) (hname : c.name ≠ "") (hrecords : c.Records events)
    {receiver : Receiver σ ε} (hreceiver : receiver.NeverFails) (s : σ) :
    ((ClassFile.parse data).map fun c => (c.name, c.references receiver s)) =
        .ok (c.name, .ok (), (Event.edges c.name none events).foldl (fun s access => (receiver access s).2) s) ∧
      ∀ access ∈ Event.edges c.name none events, access.dest.owner ≠ rootClass := by
  refine ⟨?_, fun access => Event.dest_ne_root_of_mem_edges⟩
  obtain ⟨place, h⟩ := references_eq_forM hname hrecords receiver s
  rw [hreceiver.forM_apply] at h
  rw [hparse, Except.map, h]

namespace ClassFile

/-- The class file of `caller`. -/
def callerBytes : Bytes :=
  [202, 254, 186, 190, 0, 0, 0, 52, 0, 13, 1, 0, 1, 65, 7, 0, 1, 1, 0, 1, 66, 7, 0, 3, 1, 0, 1, 102, 1, 0, 3, 40,
    41, 86, 12, 0, 5, 0, 6, 10, 0, 4, 0, 7, 1, 0, 4, 67, 111, 100, 101, 1, 0, 16, 106, 97, 118, 97, 47, 108, 97,
    110, 103, 47, 79, 98, 106, 101, 99, 116, 7, 0, 10, 10, 0, 11, 0, 7, 0, 33, 0, 2, 0, 0, 0, 0, 0, 0, 0, 1, 0, 9,
    0, 5, 0, 6, 0, 1, 0, 9, 0, 0, 0, 22, 0, 1, 0, 0, 0, 0, 0, 10, 184, 0, 8, 184, 0, 12, 184, 0, 8, 177, 0, 0, 0, 0,
    0, 0]

theorem parse_callerBytes : parse callerBytes = .ok caller := by cbv

/-- The call of the root class is left out and the repeated call is kept. -/
theorem callerBytes_references :
    parse callerBytes = .ok caller ∧ caller.name ≠ "" ∧ caller.Records callerEvents ∧
      ((parse callerBytes).map fun c => (c.name, c.references (Receiver.collect : Receiver (List Access) Empty) [])) =
        .ok ("A", .ok (), [⟨⟨"A", "f"⟩, ⟨"B", "f"⟩⟩, ⟨⟨"A", "f"⟩, ⟨"B", "f"⟩⟩]) :=
  ⟨parse_callerBytes, by decide, caller_records,
    (parse_references_eq_edges parse_callerBytes (by decide) caller_records (fun _ _ => rfl) []).1⟩

end ClassFile
end Linkage
