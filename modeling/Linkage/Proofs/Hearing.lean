import Linkage.Proofs.Script

/-!
What reaches the far end of a chain. Behind stages that decline nothing a performance comes down to hearing the cues:
each event is told after the reference that it makes is reported. What is heard does not depend on what is open, only
on the class and on the method declared last.
-/
namespace Linkage

namespace Event

/-- The method that the events after this one belong to, if the ones before belonged to `m`. -/
def methodAfter (m : Option String) : Event → Option String
  | .method decl => some decl.name
  | _ => m

/-- The reference that an event of the class makes in the method declared last, if it is reported. -/
def access? (owner : String) : Option String → Event → Option Access
  | some m, .code event => event.access? ⟨owner, m⟩
  | _, _ => none

/-- The references among the events of a class: each instruction that uses a field or a method makes one, from the
method declared last to the member that it names, unless the root class owns that member. -/
def edges (owner : String) : Option String → List Event → List Access
  | _, [] => []
  | _, .method decl :: rest => edges owner (some decl.name) rest
  | some m, .code (.fieldInsn _ used name _) :: rest =>
    (if used = rootClass then [] else [⟨⟨owner, m⟩, ⟨used, name⟩⟩]) ++ edges owner (some m) rest
  | some m, .code (.methodInsn _ used name _ _) :: rest =>
    (if used = rootClass then [] else [⟨⟨owner, m⟩, ⟨used, name⟩⟩]) ++ edges owner (some m) rest
  | m, _ :: rest => edges owner m rest

theorem edges_cons (owner : String) (m : Option String) (event : Event) (rest : List Event) :
    edges owner m (event :: rest) = (event.access? owner m).toList ++ edges owner (event.methodAfter m) rest := by
  cases event with
  | declare header => cases m <;> rfl
  | member event => cases m <;> rfl
  | method decl => cases m <;> rfl
  | code event =>
    cases m with
    | none => cases event <;> rfl
    | some m =>
      cases event <;> simp only [edges, access?, CodeEvent.access?, CodeEvent.reference, methodAfter,
        Option.toList_none, List.nil_append]
      all_goals split <;> rfl

theorem edges_append (owner : String) (m : Option String) (first second : List Event) :
    edges owner m (first ++ second) =
      edges owner m first ++ edges owner (first.foldl methodAfter m) second := by
  induction first generalizing m with
  | nil => rfl
  | cons event first ih => simp [edges_cons, ih]

/-- A reported reference leads from the class to a member of another than the root class. -/
theorem access?_eq_some {owner : String} {m : Option String} {event : Event} {a : Access}
    (h : event.access? owner m = some a) : a.source.owner = owner ∧ a.dest.owner ≠ rootClass := by
  cases event with
  | code event =>
    cases m with
    | none => simp [access?] at h
    | some m =>
      simp only [access?, CodeEvent.access?] at h
      split at h
      · split at h
        · simp at h
        · rename_i dest _ hd
          simp only [Option.some.injEq] at h
          exact h ▸ ⟨rfl, hd⟩
      · simp at h
  | _ => cases m <;> simp [access?] at h

theorem exists_access?_of_mem_edges {owner : String} {m : Option String} {events : List Event} {a : Access}
    (h : a ∈ edges owner m events) : ∃ (event : Event) (m' : Option String), event.access? owner m' = some a := by
  induction events generalizing m with
  | nil => simp [edges] at h
  | cons event events ih =>
    rw [edges_cons, List.mem_append, Option.mem_toList] at h
    obtain h | h := h
    · exact ⟨event, m, h⟩
    · exact ih h

theorem dest_ne_root_of_mem_edges {owner : String} {m : Option String} {events : List Event} {a : Access}
    (h : a ∈ edges owner m events) : a.dest.owner ≠ rootClass := by
  obtain ⟨event, m', ha⟩ := exists_access?_of_mem_edges h
  exact (access?_eq_some ha).2

theorem source_owner_of_mem_edges {owner : String} {m : Option String} {events : List Event} {a : Access}
    (h : a ∈ edges owner m events) : a.source.owner = owner := by
  obtain ⟨event, m', ha⟩ := exists_access?_of_mem_edges h
  exact (access?_eq_some ha).1

end Event

/-- The cues of a class in an order that a replay can give them: the inside of a method comes after its declaration,
and no class is declared among them. -/
def Orderly : Option String → List Cue → Prop
  | _, [] => True
  | m, .event _ (.member _) :: cues => Orderly m cues
  | _, .event _ (.method decl) :: cues => Orderly (some decl.name) cues
  | some m, .event _ (.code _) :: cues => Orderly (some m) cues
  | some m, .fault _ _ :: cues => Orderly (some m) cues
  | _, _ => False

theorem orderly_members (m : Option String) (events : List MemberEvent) {cues : List Cue} (h : Orderly m cues) :
    Orderly m (events.map (fun e => .event none (.member e)) ++ cues) := by
  induction events with
  | nil => exact h
  | cons e events ih => exact ih

theorem orderly_body (m : String) {body cues : List Cue} (hb : ∀ cue ∈ body, cue.OfBody) (h : Orderly (some m) cues) :
    Orderly (some m) (body ++ cues) := by
  induction body with
  | nil => exact h
  | cons cue body ih =>
    have ht := ih fun cue hc => hb cue (by simp [hc])
    match cue, hb cue (by simp) with
    | .event _ (.code _), _ => exact ht
    | .fault _ _, _ => exact ht

theorem orderly_methods (pool : Pool) (m : Option String) (ms : List Method) {cues : List Cue}
    (h : ∀ m, Orderly m cues) : Orderly m (ms.flatMap (Method.cues pool) ++ cues) := by
  induction ms generalizing m with
  | nil => exact h m
  | cons method ms ih =>
    rw [List.flatMap_cons, List.append_assoc, Method.cues, List.cons_append, List.append_assoc]
    refine orderly_body method.decl.name ?_ (ih _)
    intro cue hc
    obtain ⟨code, -, hc⟩ := List.mem_flatMap.mp hc
    exact Code.cues_ofBody pool method.decl code cue hc

theorem ClassFile.content_orderly (c : ClassFile) : Orderly none c.content := by
  rw [ClassFile.content, List.append_assoc]
  exact orderly_members none _ (orderly_methods c.pool none _ fun _ => trivial)

variable {σ ε : Type}

/-- Reports the reference that an event makes, then tells the event. -/
def Event.pass (report : Access → Visit σ ε Unit) (tell : Event → Visit σ ε Unit) (owner : String) (m : Option String)
    (event : Event) : Visit σ ε Unit := do
  if let some access := event.access? owner m then report access
  tell event

/-- Passes the event of a cue on; the answer is the method that follows. -/
def hear (report : Access → Visit σ ε Unit) (tell : Event → Visit σ ε Unit) (owner : String) (m : Option String) :
    Cue → Run σ (ReplayError ε) (Option String)
  | .event place event => do
    Visit.within place (event.pass report tell owner m)
    return event.methodAfter m
  | .fault place fault => throw ⟨place, .body fault⟩

def hearAll (report : Access → Visit σ ε Unit) (tell : Event → Visit σ ε Unit) (owner : String) (cues : List Cue)
    (m : Option String) : Run σ (ReplayError ε) (Option String) :=
  cues.foldlM (hear report tell owner) m

section

variable {report : Access → Visit σ ε Unit} {tell : Event → Visit σ ε Unit} {owner : String} {m : Option String}
  {event : Event} {s s' : σ}

/-- An event whose reference nobody is given is only told. -/
theorem Event.pass_unreported : event.pass (fun _ => pure ()) tell owner m = tell event := by
  cases ha : event.access? owner m <;> simp [Event.pass, ha]

theorem hear_of_pass_ok (place : Option (String × String)) (h : event.pass report tell owner m s = (.ok (), s')) :
    hear report tell owner m (.event place event) s = (.ok (event.methodAfter m), s') := by
  have hw : Visit.within place (event.pass report tell owner m) s = (.ok (), s') := by simp [Visit.within, h]
  exact Run.bind_ok hw

theorem hear_of_pass_error {error : StageError ε} (place : Option (String × String))
    (h : event.pass report tell owner m s = (.error error, s')) :
    hear report tell owner m (.event place event) s = (.error ⟨place, .stage error⟩, s') := by
  have hw : Visit.within place (event.pass report tell owner m) s = (.error ⟨place, .stage error⟩, s') := by
    simp [Visit.within, h]
  exact Run.bind_error hw

theorem hearAll_cons (cue : Cue) (cues : List Cue) :
    hearAll report tell owner (cue :: cues) m = hear report tell owner m cue >>= hearAll report tell owner cues := rfl

end

/-- A sink that wants every class and every method. -/
def Sink.TakesAll (sink : Sink σ ε) : Prop :=
  (∀ header s s', sink (.declare header) s ≠ (.ok false, s')) ∧ ∀ decl s s', sink (.method decl) s ≠ (.ok false, s')

/-- A sink that neither fails nor keeps anything. -/
def Sink.Silent (sink : Sink σ ε) : Prop := ∀ event s, ∃ wanted, sink event s = (.ok wanted, s)

/-- If every cue is taken as it is heard, so are all of them. -/
theorem perform_agrees_hearAll {chain : Chain σ ε} {report : Access → Visit σ ε Unit} {tell : Event → Visit σ ε Unit}
    {owner : String} {R : Option String → Scope → Prop}
    (hstep : ∀ m scope cue cues, R m scope → Orderly m (cue :: cues) →
      Run.Agrees (fun after m' => R m' after ∧ Orderly m' cues) (chain.take scope cue) (hear report tell owner m cue))
    {cues : List Cue} {m : Option String} {scope : Scope} (ho : Orderly m cues) (hr : R m scope) :
    Run.Agrees (fun after m' => R m' after) (chain.perform cues scope) (hearAll report tell owner cues m) := by
  induction cues generalizing m scope with
  | nil => exact .pure hr
  | cons cue cues ih => exact (hstep m scope cue cues hr ho).bind fun after m' h => ih h.2 h.1

/-- The scope of a chain that has everything open and passes everything on. -/
def Scope.reaching (owner : String) (m : Option String) : Scope :=
  ⟨some ⟨owner, true⟩, m.map fun name => ⟨⟨owner, name⟩, true⟩⟩

theorem Visit.within_agrees {α β : Type} {R : α → β → Prop} {x : Visit σ ε α} {y : Visit σ ε β}
    (h : Run.Agrees R x y) (place : Option (String × String)) :
    Run.Agrees R (Visit.within place x) (Visit.within place y) := by
  intro s
  obtain ⟨a, b, s', hx, hy, hab⟩ | ⟨e, s', hx, hy⟩ := h s
  · exact .inl ⟨a, b, s', by simp [Visit.within, hx], by simp [Visit.within, hy], hab⟩
  · exact .inr ⟨⟨place, .stage e⟩, s', by simp [Visit.within, hx], by simp [Visit.within, hy]⟩

theorem Sink.agrees_true {sink : Sink σ ε} {event : Event} (h : ∀ s s', sink event s ≠ (.ok false, s')) :
    Run.Agrees (fun wanted _ => wanted = true) (sink event) (sink event) := by
  intro s
  rcases hs : sink event s with ⟨e | - | -, s'⟩
  · exact .inr ⟨e, s', rfl, rfl⟩
  · exact absurd hs (h s s')
  · exact .inl ⟨true, true, s', rfl, rfl, rfl⟩

namespace Chain

variable {chain : Chain σ ε}

theorem declare_agrees (hsink : chain.sink.TakesAll) {header : Header}
    (h : chain.observed = true → header.name ≠ "") :
    Run.Agrees (fun opened _ => opened = some ⟨header.name, true⟩) (chain.declare (some header))
      (chain.sink.tell (.declare (some header))) := by
  rw [chain.declare_eq h]
  exact (Sink.agrees_true (hsink.1 _)).bind fun wanted _ hw => .pure (by simp [hw])

theorem method_agrees (hsink : chain.sink.TakesAll) (owner : String) (decl : MethodDecl) :
    Run.Agrees (fun opened _ => opened = some ⟨⟨owner, decl.name⟩, true⟩) (chain.method ⟨owner, true⟩ decl)
      (chain.sink.tell (.method decl)) := by
  rw [chain.method_eq]
  exact (Sink.agrees_true (hsink.2 decl)).bind fun wanted _ hw => .pure (by simp [hw])

/-- One cue is taken as it is heard by a sink that wants everything. -/
theorem take_reaching (hsink : chain.sink.TakesAll) (owner : String) (m : Option String) (cue : Cue) (cues : List Cue)
    (ho : Orderly m (cue :: cues)) :
    Run.Agrees (fun after m' => after = Scope.reaching owner m' ∧ Orderly m' cues)
      (chain.take (Scope.reaching owner m) cue) (hear chain.report chain.sink.tell owner m cue) := by
  match m, cue, ho with
  | m, .event place (.member e), ho =>
    have ha : (Event.member e).access? owner m = none := by cases m <;> rfl
    simp only [hear, Event.pass, ha]
    exact (Run.Agrees.refl _).bind fun _ _ _ => .pure ⟨rfl, ho⟩
  | m, .event place (.method decl), ho =>
    have ha : (Event.method decl).access? owner m = none := by cases m <;> rfl
    simp only [hear, Event.pass, ha]
    refine (Visit.within_agrees (method_agrees hsink owner decl) place).bind fun opened _ h => .pure ⟨?_, ho⟩
    rw [h]
    rfl
  | some m, .event place (.code e), ho =>
    simp only [take, Scope.reaching, Option.map_some, code_eq, if_true, hear, Event.pass, Event.access?]
    exact (Run.Agrees.refl _).bind fun _ _ _ => .pure ⟨rfl, ho⟩
  | some m, .fault place fault, ho => exact .throw _

/-- A sink that wants everything hears the whole script. -/
theorem perform_script_agrees (chain : Chain σ ε) (hsink : chain.sink.TakesAll) {c : ClassFile}
    (hname : chain.observed = true → c.name ≠ "") :
    Run.Agrees (fun _ _ => True) (chain.perform c.script {})
      (hearAll chain.report chain.sink.tell c.name c.script none) := by
  refine Run.Agrees.bind (R := fun after m => after = Scope.reaching c.name none ∧ m = none) ?_ ?_
  · refine (Visit.within_agrees (declare_agrees hsink hname) none).bind fun opened _ h => .pure ⟨?_, rfl⟩
    rw [h]
    rfl
  · rintro after m ⟨rfl, rfl⟩
    have h := perform_agrees_hearAll (R := fun m after => after = Scope.reaching c.name m)
      (fun m scope cue cues hr ho => by subst hr; exact take_reaching hsink c.name m cue cues ho)
      c.content_orderly rfl
    exact h.weaken fun _ _ _ => trivial

end Chain

theorem Sink.Silent.agrees {sink : Sink σ ε} (h : sink.Silent) (event : Event) :
    Run.Agrees (fun _ _ => True) (sink event) (pure ()) := by
  intro s
  obtain ⟨wanted, hs⟩ := h event s
  exact .inl ⟨wanted, (), s, hs, rfl, trivial⟩

theorem Sink.Silent.tell_agrees {sink : Sink σ ε} (h : sink.Silent) (event : Event) :
    Run.Agrees (fun _ _ => True) (sink.tell event) (pure ()) :=
  (h.agrees event).bind fun _ _ _ => .pure trivial

/-- The scope of a chain that has everything open; it may or may not pass it on. -/
def Scope.Open (owner : String) (m : Option String) (scope : Scope) : Prop :=
  scope.opened.map (·.name) = some owner ∧ scope.method.map (·.source) = m.map fun name => ⟨owner, name⟩

namespace Chain

variable {chain : Chain σ ε}

theorem declare_open (hobserved : chain.observed = true) (hsink : chain.sink.Silent) {header : Header}
    (h : header.name ≠ "") :
    Run.Agrees (fun opened _ => opened.map (·.name) = some header.name) (chain.declare (some header)) (pure ()) := by
  rw [chain.declare_eq fun _ => h]
  exact (hsink.agrees _).bind fun wanted _ _ => .pure (by simp [hobserved])

theorem wants_agrees (hsink : chain.sink.Silent) (c : OpenClass) (decl : MethodDecl) :
    Run.Agrees (fun _ _ => True) (chain.wants c decl) (pure ()) := by
  unfold wants
  split
  · exact hsink.agrees _
  · exact .pure trivial

theorem method_open (hobserved : chain.observed = true) (hsink : chain.sink.Silent) (c : OpenClass)
    (decl : MethodDecl) :
    Run.Agrees (fun opened _ => opened.map (·.source) = some ⟨c.name, decl.name⟩) (chain.method c decl) (pure ()) := by
  rw [chain.method_eq]
  exact (wants_agrees hsink c decl).bind fun wanted _ _ => .pure (by simp [hobserved])

theorem code_open (chain : Chain σ ε) (hsink : chain.sink.Silent) (m : OpenMethod) (event : CodeEvent) :
    Run.Agrees (fun _ _ => True) (chain.code m event) (do
      if let some access := event.access? m.source then chain.report access
      pure ()) := by
  rw [chain.code_eq]
  have hend : Run.Agrees (fun _ _ => True) (if m.reaches then chain.sink.tell (.code event) else pure ())
      (pure ()) := by
    split
    · exact hsink.tell_agrees _
    · exact .pure trivial
  cases event.access? m.source with
  | none => exact hend
  | some access => exact (Run.Agrees.refl _).bind fun _ _ _ => hend

/-- One cue is taken as it is heard where some stage reports references and the sink is silent. -/
theorem take_open (hobserved : chain.observed = true) (hsink : chain.sink.Silent) (owner : String) (m : Option String)
    (scope : Scope) (cue : Cue) (cues : List Cue) (hopen : scope.Open owner m) (ho : Orderly m (cue :: cues)) :
    Run.Agrees (fun after m' => after.Open owner m' ∧ Orderly m' cues) (chain.take scope cue)
      (hear chain.report (fun _ => pure ()) owner m cue) := by
  obtain ⟨opened, method⟩ := scope
  obtain ⟨hclass, hmethod⟩ := hopen
  obtain ⟨c, rfl, rfl⟩ := Option.map_eq_some_iff.mp hclass
  match m, cue, ho with
  | m, .event place (.member e), ho =>
    have ha : (Event.member e).access? c.name m = none := by cases m <;> rfl
    have hm : Run.Agrees (fun _ _ => True) (chain.member c e) (pure ()) := by
      rw [member_eq]
      split
      · exact hsink.tell_agrees _
      · exact .pure trivial
    simp only [hear, Event.pass, ha]
    exact (Visit.within_agrees hm place).bind fun _ _ _ => .pure ⟨⟨hclass, hmethod⟩, ho⟩
  | m, .event place (.method decl), ho =>
    have ha : (Event.method decl).access? c.name m = none := by cases m <;> rfl
    simp only [hear, Event.pass, ha]
    exact (Visit.within_agrees (method_open hobserved hsink c decl) place).bind fun opened _ h =>
      .pure ⟨⟨hclass, h⟩, ho⟩
  | some m, .event place (.code e), ho =>
    obtain ⟨om, rfl, hom⟩ := Option.map_eq_some_iff.mp hmethod
    simp only [hear, Event.pass, Event.access?]
    have hc := chain.code_open hsink om e
    rw [hom] at hc
    exact (Visit.within_agrees hc place).bind fun _ _ _ => .pure ⟨⟨hclass, hmethod⟩, ho⟩
  | some m, .fault place fault, ho =>
    obtain ⟨om, rfl, hom⟩ := Option.map_eq_some_iff.mp hmethod
    exact .throw _

/-- Before a silent sink the stages of a chain hear the whole script, whatever the sink declines. -/
theorem perform_script_open (chain : Chain σ ε) (hobserved : chain.observed = true) (hsink : chain.sink.Silent)
    {c : ClassFile} (hname : c.name ≠ "") :
    Run.Agrees (fun _ _ => True) (chain.perform c.script {})
      (hearAll chain.report (fun _ => pure ()) c.name c.script none) := by
  refine Run.Agrees.bind (R := fun after m => after.Open c.name m ∧ m = none) ?_ ?_
  · exact (Visit.within_agrees (declare_open hobserved hsink hname) none).bind fun opened _ h => .pure ⟨⟨h, rfl⟩, rfl⟩
  · rintro after m ⟨h, rfl⟩
    exact (perform_agrees_hearAll
      (fun m scope cue cues hr ho => take_open hobserved hsink c.name m scope cue cues hr ho) c.content_orderly h).weaken fun _ _ _ => trivial

end Chain

namespace ClassFile

variable {c : ClassFile}

/-- A replay before a sink that wants everything is the hearing of the script. -/
theorem play_eq_hearAll (chain : Chain σ ε) (hsink : chain.sink.TakesAll)
    (hname : chain.observed = true → c.name ≠ "") (s : σ) :
    c.play chain s =
      ((hearAll chain.report chain.sink.tell c.name c.script none s).1.map fun _ => (),
        (hearAll chain.report chain.sink.tell c.name c.script none s).2) :=
  (c.play_eq_perform chain s).trans ((chain.perform_script_agrees hsink hname).eq s)

theorem play_eq_hearAll_silent (chain : Chain σ ε) (hobserved : chain.observed = true) (hsink : chain.sink.Silent)
    (hname : c.name ≠ "") (s : σ) :
    c.play chain s =
      ((hearAll chain.report (fun _ => pure ()) c.name c.script none s).1.map fun _ => (),
        (hearAll chain.report (fun _ => pure ()) c.name c.script none s).2) :=
  (c.play_eq_perform chain s).trans ((chain.perform_script_open hobserved hsink hname).eq s)

end ClassFile
end Linkage
