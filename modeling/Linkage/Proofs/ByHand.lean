import Linkage.Proofs.Abort

/-!
A stage that reports references, driven by hand. Its classes and methods are opened in any number and called in any
order, also after their end. A reference is put down to the class and the method that were opened for the value which
the call is made with, never to the ones that were declared last.
-/
namespace Linkage

/-- A call made by hand: on the stage itself, on the class that it opened as the `body`-th, or on the method that was
opened as the `method`-th. -/
inductive HandCall where
  | declare (header : Option Header)
  | member (body : Nat) (event : MemberEvent)
  | method (body : Nat) (decl : MethodDecl)
  | code (method : Nat) (event : CodeEvent)

namespace HandCall

/-- A header that names a class. -/
def named (header : Option Header) : Option Header := header.filter (·.name ≠ "")

/-- The declaration of a class with a name, which opens it. -/
def opens : HandCall → Option Header
  | .declare header => named header
  | _ => none

/-- The declaration of a method, with the class that it is made on. -/
def begins : HandCall → Option (Nat × MethodDecl)
  | .method body decl => some (body, decl)
  | _ => none

/-- The event that the sink is to get. -/
def event : HandCall → Option Event
  | .declare header => (named header).map fun header => .declare (some header)
  | .member _ event => some (.member event)
  | .method _ decl => some (.method decl)
  | .code _ event => some (.code event)

/-- What the caller is to be answered. -/
def answer {ε : Type} : HandCall → Except (StageError ε) Unit
  | .declare header => if (named header).isSome then .ok () else .error .undeclaredClass
  | _ => .ok ()

/-- The call is on something that one of the calls before it has opened. -/
def On (before : List HandCall) : HandCall → Prop
  | .declare _ => True
  | .member body _ => body < (before.filterMap opens).length
  | .method body _ => body < (before.filterMap opens).length
  | .code index _ => index < (before.filterMap begins).length

instance (before : List HandCall) : (call : HandCall) → Decidable (call.On before)
  | .declare _ => .isTrue trivial
  | .member _ _ | .method _ _ | .code _ _ => inferInstanceAs (Decidable (_ < _))

/-- Calls each of which is on something that has been opened before. -/
inductive Scoped : List HandCall → Prop
  | nil : Scoped []
  | snoc {before : List HandCall} {call : HandCall} (h : Scoped before) (hcall : call.On before) :
      Scoped (before ++ [call])

/-- The member that a method was opened for: the class that it was declared on, and its own name. -/
def sourceOf (calls : List HandCall) (index : Nat) : Option Member := do
  let (body, decl) ← (calls.filterMap begins)[index]?
  let header ← (calls.filterMap opens)[body]?
  return ⟨header.name, decl.name⟩

/-- The reference that is to be reported for a call among some calls: from the member that the method was opened for to
the one that this very instruction names. -/
def edge (calls : List HandCall) : HandCall → Option Access
  | .code index (.fieldInsn _ owner name _) =>
    if owner = rootClass then none else (sourceOf calls index).map fun source => ⟨source, ⟨owner, name⟩⟩
  | .code index (.methodInsn _ owner name _ _) =>
    if owner = rootClass then none else (sourceOf calls index).map fun source => ⟨source, ⟨owner, name⟩⟩
  | _ => none

end HandCall

/-- What is at hand after some calls: the state of the chain, what has been opened, and the answers. -/
structure Session (σ ε : Type) where
  state : σ
  classes : List OpenClass := []
  methods : List OpenMethod := []
  answers : List (Except (StageError ε) Unit) := []

namespace Session

variable {σ ε : Type}

/-- Takes the outcome of a call; `keep` puts what it opened at hand. -/
def settle {α : Type} (session : Session σ ε) (outcome : Except (StageError ε) α × σ)
    (keep : α → Session σ ε → Session σ ε) : Session σ ε :=
  match outcome with
  | (.ok a, s) => keep a { session with state := s, answers := session.answers ++ [.ok ()] }
  | (.error e, s) => { session with state := s, answers := session.answers ++ [.error e] }

/-- Makes a call. One on something that has not been opened cannot be made. -/
def call (chain : Chain σ ε) (session : Session σ ε) : HandCall → Session σ ε
  | .declare header =>
    session.settle (chain.declare header session.state) fun opened session =>
      { session with classes := session.classes ++ opened.toList }
  | .member body event =>
    match session.classes[body]? with
    | some c => session.settle (chain.member c event session.state) fun _ session => session
    | none => session
  | .method body decl =>
    match session.classes[body]? with
    | some c => session.settle (chain.method c decl session.state) fun opened session =>
        { session with methods := session.methods ++ opened.toList }
    | none => session
  | .code index event =>
    match session.methods[index]? with
    | some m => session.settle (chain.code m event session.state) fun _ session => session
    | none => session

/-- Makes one call after the other. -/
def run (chain : Chain σ ε) (calls : List HandCall) (s : σ) : Session σ ε := calls.foldl (call chain) { state := s }

end Session

namespace HandCall

theorem getElem?_filterMap_append {α : Type} {f : HandCall → Option α} {calls : List HandCall} {index : Nat} {a : α}
    (h : (calls.filterMap f)[index]? = some a) (more : List HandCall) :
    ((calls ++ more).filterMap f)[index]? = some a := by
  obtain ⟨hlt, -⟩ := List.getElem?_eq_some_iff.mp h
  rw [List.filterMap_append, List.getElem?_append_left hlt, h]

theorem sourceOf_eq_some_iff {calls : List HandCall} {index : Nat} {source : Member} :
    sourceOf calls index = some source ↔ ∃ body decl header, (calls.filterMap begins)[index]? = some (body, decl) ∧
      (calls.filterMap opens)[body]? = some header ∧ source = ⟨header.name, decl.name⟩ := by
  simp only [sourceOf, Option.bind_eq_bind, Option.bind_eq_some_iff, Option.pure_def, Option.some.injEq, Prod.exists]
  constructor
  · rintro ⟨body, decl, hbegins, header, hopens, rfl⟩
    exact ⟨body, decl, header, hbegins, hopens, rfl⟩
  · rintro ⟨body, decl, header, hbegins, hopens, rfl⟩
    exact ⟨body, decl, hbegins, header, hopens, rfl⟩

/-- Later calls do not change what a method was opened for. -/
theorem sourceOf_append {calls : List HandCall} {index : Nat} {source : Member}
    (h : sourceOf calls index = some source) (more : List HandCall) : sourceOf (calls ++ more) index = some source := by
  obtain ⟨body, decl, header, hbegins, hopens, hsource⟩ := sourceOf_eq_some_iff.mp h
  exact sourceOf_eq_some_iff.mpr ⟨body, decl, header, getElem?_filterMap_append hbegins more,
    getElem?_filterMap_append hopens more, hsource⟩

theorem Scoped.exists_sourceOf {calls : List HandCall} (h : Scoped calls) {index : Nat}
    (hindex : index < (calls.filterMap begins).length) : ∃ source, sourceOf calls index = some source := by
  induction h with
  | nil => simp at hindex
  | @snoc before call h hcall ih =>
    by_cases hbefore : index < (before.filterMap begins).length
    · obtain ⟨source, hsource⟩ := ih hbefore
      exact ⟨source, sourceOf_append hsource [call]⟩
    · -- the call itself declares the method
      cases call with
      | method body decl =>
        obtain ⟨header, hheader⟩ : ∃ header, (before.filterMap opens)[body]? = some header :=
          ⟨_, List.getElem?_eq_getElem hcall⟩
        obtain rfl : index = (before.filterMap begins).length := by
          simp only [List.filterMap_append, List.length_append, List.filterMap_cons, begins, List.filterMap_nil,
            List.length_cons, List.length_nil] at hindex
          omega
        refine ⟨_, sourceOf_eq_some_iff.mpr ⟨body, decl, header, ?_, getElem?_filterMap_append hheader _, rfl⟩⟩
        simp [begins]
      | declare header => simp [begins] at hindex; contradiction
      | member body event => simp [begins] at hindex; contradiction
      | code index event => simp [begins] at hindex; contradiction

theorem Scoped.lt_of_mem {calls : List HandCall} (h : Scoped calls) {index : Nat} {event : CodeEvent}
    (hmem : .code index event ∈ calls) : index < (calls.filterMap begins).length := by
  induction h with
  | nil => simp at hmem
  | @snoc before call h hcall ih =>
    rw [List.filterMap_append, List.length_append]
    rcases List.mem_append.mp hmem with hmem | hmem
    · have := ih hmem
      omega
    · obtain rfl := List.mem_singleton.mp hmem
      exact Nat.lt_add_right _ hcall

theorem edge_code {calls : List HandCall} {index : Nat} {source : Member} (h : sourceOf calls index = some source)
    (event : CodeEvent) : edge calls (.code index event) = event.access? source := by
  cases event <;> simp [edge, CodeEvent.access?, CodeEvent.reference, h]

theorem edge_append {calls : List HandCall} {call : HandCall}
    (h : ∀ index event, call = .code index event → ∃ source, sourceOf calls index = some source)
    (more : List HandCall) : edge (calls ++ more) call = edge calls call := by
  cases call with
  | code index event =>
    obtain ⟨source, hsource⟩ := h index event rfl
    rw [edge_code hsource, edge_code (sourceOf_append hsource more)]
  | declare header => rfl
  | member body event => rfl
  | method body decl => rfl

/-- One more call adds its own reference and changes none of those before. -/
theorem Scoped.edges_snoc {before : List HandCall} (h : Scoped before) {call : HandCall} (hcall : call.On before) :
    (before ++ [call]).filterMap (edge (before ++ [call])) =
      before.filterMap (edge before) ++ (edge before call).toList := by
  have hbefore : before.filterMap (edge (before ++ [call])) = before.filterMap (edge before) := by
    refine List.filterMap_congr fun earlier hmem => edge_append (fun index event heq => ?_) [call]
    subst heq
    exact h.exists_sourceOf (h.lt_of_mem hmem)
  have hlast : edge (before ++ [call]) call = edge before call := by
    refine edge_append (fun index event heq => ?_) [call]
    subst heq
    exact h.exists_sourceOf hcall
  rw [List.filterMap_append, hbefore, List.filterMap_cons, hlast]
  cases edge before call <;> rfl

end HandCall

/-! What the stage does with each kind of call, if all its calls and references are recorded. -/
namespace Chain

variable {ρ ε : Type} (receiver : Receiver ρ ε) (refusal : ε) (p : Recorder × Logged ρ Access)

def recorded : Chain (Recorder × Logged ρ Access) ε := watched (Run.logged receiver) (Recorder.sink { refusal })

theorem recorded_sink (event : Event) :
    (recorded receiver refusal).sink event p = (.ok true, ({ p.1 with events := p.1.events.push event }, p.2)) := by
  change Run.onFirst (Recorder.sink { refusal } event) p = _
  rw [Run.onFirst, Recorder.sink_apply]

theorem recorded_tell (event : Event) :
    (recorded receiver refusal).sink.tell event p = (.ok (), ({ p.1 with events := p.1.events.push event }, p.2)) := by
  rw [Sink.tell_apply, recorded_sink]
  rfl

theorem recorded_declare {header : Header} (h : header.name ≠ "") :
    (recorded receiver refusal).declare (some header) p =
      (.ok (some ⟨header.name, true⟩), ({ p.1 with events := p.1.events.push (.declare (some header)) }, p.2)) := by
  rw [declare_eq _ fun _ => h, Run.bind_ok (recorded_sink receiver refusal p _)]
  rfl

/-- A class without a name is not taken, and nothing behind the stage hears of it. -/
theorem watched_declare_unnamed {σ : Type} (sink : Sink σ ε) {header : Option Header}
    (h : HandCall.named header = none) (p : σ × ρ) :
    (watched receiver sink).declare header p = (.error .undeclaredClass, p) := by
  have hname : declare.name header = "" := by
    cases header with
    | none => rfl
    | some header => simpa [HandCall.named, declare.name] using h
  simp [watched, declare, declare.go, hname]

theorem recorded_member (name : String) (event : MemberEvent) :
    (recorded receiver refusal).member ⟨name, true⟩ event p =
      (.ok (), ({ p.1 with events := p.1.events.push (.member event) }, p.2)) := by
  rw [member_eq]
  exact recorded_tell receiver refusal p _

theorem recorded_method (name : String) (decl : MethodDecl) :
    (recorded receiver refusal).method ⟨name, true⟩ decl p =
      (.ok (some ⟨⟨name, decl.name⟩, true⟩), ({ p.1 with events := p.1.events.push (.method decl) }, p.2)) := by
  rw [method_eq]
  exact Run.bind_ok (recorded_sink receiver refusal p _)

theorem recorded_code {receiver : Receiver ρ ε} (hreceiver : receiver.NeverFails) (source : Member)
    (event : CodeEvent) : ∃ t : ρ, (recorded receiver refusal).code ⟨source, true⟩ event p =
      (.ok (), ({ p.1 with events := p.1.events.push (.code event) },
        ⟨t, p.2.log ++ (event.access? source).toList⟩)) := by
  rw [code_eq]
  cases haccess : event.access? source with
  | none => exact ⟨p.2.state, by simpa using recorded_tell receiver refusal p _⟩
  | some access =>
    refine ⟨(receiver access p.2.state).2, ?_⟩
    have hreport : (recorded receiver refusal).report access p =
        (.ok (), (p.1, ⟨(receiver access p.2.state).2, p.2.log ++ [access]⟩)) := by
      simp [recorded, watched, report, Stage.report, Receiver.beside, Run.onSecond, Run.logged,
        hreceiver access p.2.state]
    exact (Run.bind_ok hreport).trans (recorded_tell receiver refusal _ _)

end Chain

namespace Session

open HandCall

variable {ρ ε : Type}

/-- What is at hand after some calls, told by the calls alone. -/
structure After (calls : List HandCall) (session : Session (Recorder × Logged ρ Access) ε) : Prop where
  classes : session.classes = (calls.filterMap opens).map fun header => ⟨header.name, true⟩
  count : session.methods.length = (calls.filterMap begins).length
  methods (index : Nat) (m : OpenMethod) : session.methods[index]? = some m →
    sourceOf calls index = some m.source ∧ m.reaches = true
  answers : session.answers = calls.map answer
  events : session.state.1.events.toList = calls.filterMap event
  edges : session.state.2.log = calls.filterMap (edge calls)

/-- The method that a call opens after some other calls. -/
def methodOf (calls : List HandCall) : HandCall → Option OpenMethod
  | .method body decl => (calls.filterMap opens)[body]?.map fun header => ⟨⟨header.name, decl.name⟩, true⟩
  | _ => none

/-- What a call puts at hand after some other calls. -/
structure Adds (calls : List HandCall) (call : HandCall) (session next : Session (Recorder × Logged ρ Access) ε) :
    Prop where
  classes : next.classes = session.classes ++ ((opens call).map fun header => ⟨header.name, true⟩).toList
  methods : next.methods = session.methods ++ (methodOf calls call).toList
  answers : next.answers = session.answers ++ [answer call]
  events : next.state.1.events.toList = session.state.1.events.toList ++ (event call).toList
  edges : next.state.2.log = session.state.2.log ++ (edge calls call).toList

theorem after_nil (t : ρ) : After [] ({ state := ({}, ⟨t, []⟩) } : Session (Recorder × Logged ρ Access) ε) := by
  constructor <;> simp

namespace After

variable {calls : List HandCall} {session : Session (Recorder × Logged ρ Access) ε} (h : session.After calls)
include h

theorem exists_class {body : Nat} (hbody : body < (calls.filterMap opens).length) :
    ∃ header, (calls.filterMap opens)[body]? = some header ∧ session.classes[body]? = some ⟨header.name, true⟩ := by
  refine ⟨_, List.getElem?_eq_getElem hbody, ?_⟩
  rw [h.classes, List.getElem?_map, List.getElem?_eq_getElem hbody]
  rfl

theorem exists_method {index : Nat} (hindex : index < (calls.filterMap begins).length) :
    ∃ source, sourceOf calls index = some source ∧ session.methods[index]? = some ⟨source, true⟩ := by
  obtain ⟨⟨source, reaches⟩, hat⟩ : ∃ m, session.methods[index]? = some m :=
    ⟨_, List.getElem?_eq_getElem (h.count.symm ▸ hindex)⟩
  obtain ⟨hsource, rfl⟩ := h.methods index _ hat
  exact ⟨source, hsource, hat⟩

theorem adds {receiver : Receiver ρ ε} (hreceiver : receiver.NeverFails) (refusal : ε) {call : HandCall}
    (hcall : call.On calls) : Adds calls call session (session.call (Chain.recorded receiver refusal) call) := by
  cases call with
  | declare header =>
    cases hnamed : named header with
    | none =>
      have hdeclare : (Chain.recorded receiver refusal).declare header session.state = _ :=
        Chain.watched_declare_unnamed _ _ hnamed session.state
      rw [Session.call, hdeclare]
      constructor <;> simp [settle, opens, methodOf, answer, event, edge, hnamed]
    | some header =>
      obtain ⟨rfl, hname⟩ := Option.filter_eq_some_iff.mp hnamed
      rw [Session.call, Chain.recorded_declare receiver refusal session.state (of_decide_eq_true hname)]
      constructor <;> simp [settle, opens, methodOf, answer, event, edge, hnamed]
  | member body e =>
    obtain ⟨header, -, hclass⟩ := h.exists_class hcall
    simp only [Session.call, hclass, Chain.recorded_member]
    constructor <;> simp [settle, opens, methodOf, answer, event, edge]
  | method body decl =>
    obtain ⟨header, hopens, hclass⟩ := h.exists_class hcall
    simp only [Session.call, hclass, Chain.recorded_method]
    constructor <;> simp [settle, opens, methodOf, answer, event, edge, hopens]
  | code index e =>
    obtain ⟨source, hsource, hat⟩ := h.exists_method hcall
    obtain ⟨t, hcode⟩ := Chain.recorded_code refusal session.state hreceiver source e
    simp only [Session.call, hat, hcode]
    constructor <;> simp [settle, opens, methodOf, answer, event, edge_code hsource]

/-- A method that has been opened stays the one of its source, and the one that the call opens has the source that the
calls tell. -/
theorem methods_snoc {call : HandCall} {next : Session (Recorder × Logged ρ Access) ε}
    (hnext : Adds calls call session next) (index : Nat) (m : OpenMethod) (hm : next.methods[index]? = some m) :
    sourceOf (calls ++ [call]) index = some m.source ∧ m.reaches = true := by
  rw [hnext.methods] at hm
  by_cases hlt : index < session.methods.length
  · rw [List.getElem?_append_left hlt] at hm
    obtain ⟨hsource, hreaches⟩ := h.methods index m hm
    exact ⟨sourceOf_append hsource [call], hreaches⟩
  · rw [List.getElem?_append_right (by omega)] at hm
    cases call with
    | method body decl =>
      cases hopens : (calls.filterMap opens)[body]? with
      | none => simp [methodOf, hopens] at hm
      | some header =>
        simp only [methodOf, hopens, Option.map_some, Option.toList_some, List.getElem?_singleton] at hm
        split at hm
        next hindex =>
          obtain rfl := Option.some.inj hm
          obtain rfl : index = (calls.filterMap begins).length := by
            have := h.count
            omega
          refine ⟨sourceOf_eq_some_iff.mpr ⟨body, decl, header, ?_, getElem?_filterMap_append hopens _, rfl⟩, rfl⟩
          simp [begins]
        next => cases hm
    | declare header => simp [methodOf] at hm
    | member body event => simp [methodOf] at hm
    | code index event => simp [methodOf] at hm

theorem snoc (hscoped : Scoped calls) {call : HandCall} (hcall : call.On calls)
    {next : Session (Recorder × Logged ρ Access) ε} (hnext : Adds calls call session next) :
    next.After (calls ++ [call]) where
  classes := by
    rw [hnext.classes, h.classes, List.filterMap_append, List.map_append]
    cases hopens : opens call <;> simp [hopens]
  count := by
    rw [hnext.methods, List.length_append, h.count, List.filterMap_append, List.length_append]
    cases call with
    | method body decl => simp [methodOf, begins, List.getElem?_eq_getElem (show body < _ from hcall)]
    | declare header => simp [methodOf, begins]
    | member body event => simp [methodOf, begins]
    | code index event => simp [methodOf, begins]
  methods := h.methods_snoc hnext
  answers := by rw [hnext.answers, h.answers, List.map_append, List.map_singleton]
  events := by
    rw [hnext.events, h.events, List.filterMap_append]
    cases hevent : event call <;> simp [hevent]
  edges := by rw [hnext.edges, h.edges, hscoped.edges_snoc hcall]

end After

/-- After any scoped calls, what is at hand is what the calls tell. -/
theorem after_run {receiver : Receiver ρ ε} (hreceiver : receiver.NeverFails) (refusal : ε) (t : ρ)
    {calls : List HandCall} (h : Scoped calls) :
    (run (Chain.recorded receiver refusal) calls ({}, ⟨t, []⟩)).After calls := by
  induction h with
  | nil => exact after_nil t
  | @snoc before call h hcall ih =>
    rw [run, List.foldl_append]
    exact ih.snoc h hcall (ih.adds hreceiver refusal hcall)

/-- Whatever is called by hand and in whatever order, the sink gets one event for each call, with its arguments and in
the order of the calls. The receiver gets the references of the instructions, each from the class and the method that
its method was opened for. Only a class without a name is answered with an error; nothing behind the stage is told of
it. -/
theorem recorded_by_hand {receiver : Receiver ρ ε} (hreceiver : receiver.NeverFails) (refusal : ε) (t : ρ)
    {calls : List HandCall} (h : Scoped calls) :
    let chain := Chain.recorded receiver refusal
    let session := run chain calls ({}, ⟨t, []⟩)
    session.answers = calls.map answer ∧ session.state.1.events.toList = calls.filterMap event ∧
      session.state.2.log = calls.filterMap (edge calls) ∧
      ∀ header p, named header = none → chain.declare header p = (.error .undeclaredClass, p) := by
  intro chain session
  have hafter := after_run hreceiver refusal t h
  exact ⟨hafter.answers, hafter.events, hafter.edges, fun header p hnamed =>
    Chain.watched_declare_unnamed _ _ hnamed p⟩

/-- Two classes with a method each, called in turns and after their end. -/
def crossed : List HandCall :=
  [.declare (some ⟨52, 33, "A", "", "", []⟩), .declare (some ⟨52, 33, "B", "", "", []⟩),
    .method 0 ⟨9, "f", "()V", "", []⟩, .method 1 ⟨9, "g", "()V", "", []⟩,
    .code 1 (.methodInsn 184 "X" "x" "()V" false), .code 0 (.methodInsn 184 "Y" "y" "()V" false),
    .code 0 .finish, .member 0 .finish, .declare none, .code 0 (.fieldInsn 178 "Z" "z" "I"),
    .code 1 (.methodInsn 183 "java/lang/Object" "<init>" "()V" false)]

theorem crossed_scoped : Scoped crossed :=
  .snoc (.snoc (.snoc (.snoc (.snoc (.snoc (.snoc (.snoc (.snoc (.snoc (.snoc .nil
    (by decide)) (by decide)) (by decide)) (by decide)) (by decide)) (by decide)) (by decide)) (by decide)) (by decide))
    (by decide)) (by decide)

/-- What `f` refers to is put down to `A`, although `B` and `g` were declared after it and also once it has ended. -/
theorem crossed_recorded : Scoped crossed ∧
    (run (Chain.recorded (Receiver.collect : Receiver (List Access) String) "refused") crossed
      ({}, ⟨[], []⟩)).state.2.log =
        [⟨⟨"B", "g"⟩, ⟨"X", "x"⟩⟩, ⟨⟨"A", "f"⟩, ⟨"Y", "y"⟩⟩, ⟨⟨"A", "f"⟩, ⟨"Z", "z"⟩⟩] ∧
    (run (Chain.recorded (Receiver.collect : Receiver (List Access) String) "refused") crossed
      ({}, ⟨[], []⟩)).answers[8]? = some (.error .undeclaredClass) := by
  have hedges : crossed.filterMap (edge crossed) =
      [⟨⟨"B", "g"⟩, ⟨"X", "x"⟩⟩, ⟨⟨"A", "f"⟩, ⟨"Y", "y"⟩⟩, ⟨⟨"A", "f"⟩, ⟨"Z", "z"⟩⟩] := by decide
  have hcollect : (Receiver.collect : Receiver (List Access) String).NeverFails := fun _ _ => rfl
  obtain ⟨hanswers, -, hlog, -⟩ := recorded_by_hand hcollect "refused" [] crossed_scoped
  refine ⟨crossed_scoped, hlog.trans hedges, ?_⟩
  rw [hanswers]
  rfl

end Session

end Linkage
