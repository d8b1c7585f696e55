import Linkage.Visit.Replay
import Linkage.Proofs.Chain
import Linkage.Proofs.Resolution

/-!
The script of a class: everything that a replay can tell of it, as one flat list of cues. A replay to any chain is the
performance of the script, one step for each cue, whatever constants are remembered when it starts.
-/
namespace Linkage

/-- Without fail, and whatever is remembered, a computation gives the same value and keeps the memo sound. -/
def Steady {α : Type} (pool : Pool) (x : StateM Memo α) : Prop :=
  ∃ a, ∀ memo, Memo.Sound pool memo → ∃ memo', x memo = (a, memo') ∧ Memo.Sound pool memo'

namespace Steady

variable {α β : Type} {pool : Pool}

theorem of_yields {x : Resolve α} {r : Except PoolFault α} (h : Run.Yields (Memo.Sound pool) x r) :
    Steady pool x.run := ⟨r, h⟩

theorem pure (a : α) : Steady pool (Pure.pure a) := ⟨a, fun memo hm => ⟨memo, rfl, hm⟩⟩

theorem bind {x : StateM Memo α} {f : α → StateM Memo β} (hx : Steady pool x) (hf : ∀ a, Steady pool (f a)) :
    Steady pool (x >>= f) := by
  obtain ⟨a, ha⟩ := hx
  obtain ⟨b, hb⟩ := hf a
  refine ⟨b, fun memo hm => ?_⟩
  obtain ⟨memo₁, h₁, hm₁⟩ := ha memo hm
  obtain ⟨memo₂, h₂, hm₂⟩ := hb memo₁ hm₁
  refine ⟨memo₂, ?_, hm₂⟩
  change f (x memo).1 (x memo).2 = _
  rw [h₁, h₂]

/-- The value is the one that comes out when nothing is remembered. -/
theorem apply {x : StateM Memo α} (h : Steady pool x) {memo : Memo} (hm : Memo.Sound pool memo) :
    ∃ memo', x memo = ((x []).1, memo') ∧ Memo.Sound pool memo' := by
  obtain ⟨a, ha⟩ := h
  obtain ⟨memo₀, h₀, -⟩ := ha [] (Memo.sound_nil pool)
  obtain ⟨memo', h', hm'⟩ := ha memo hm
  exact ⟨memo', by rw [h', h₀], hm'⟩

end Steady

theorem Instruction.event_steady (pool : Pool) (i : Instruction) : Steady pool (i.event pool).run := by
  have hlift {α : Type} (r : Except PoolFault α) (f : α → CodeEvent) :
      Steady pool (do return f (← r) : Resolve CodeEvent).run :=
    .of_yields ((Run.yields_lift r).bind fun a _ => Run.yields_pure (f a))
  unfold Instruction.event
  cases i.operand with
  | none => exact .pure _
  | number value => exact .pure _
  | localVar index => exact .pure _
  | increment index amount => exact .pure _
  | type index => exact hlift _ _
  | field index => exact hlift _ _
  | method index => exact hlift _ _
  | invokeDynamic index =>
    exact .of_yields ((Pool.callSite_yields index).bind fun site _ => Run.yields_pure _)
  | constant index => exact .of_yields ((Pool.loadable_yields index).bind fun value _ => Run.yields_pure _)
  | jump target => exact .pure _
  | tableSwitch low high otherwise targets => exact .pure _
  | lookupSwitch otherwise cases => exact .pure _
  | multiArray index dimensions => exact hlift _ _

namespace Code

theorem instructionEvents_steady (pool : Pool) (code : Code) (labels : Std.TreeSet Label) (is : List Instruction) :
    Steady pool (code.instructionEvents pool labels is) := by
  induction is with
  | nil => exact .pure _
  | cons i rest ih =>
    rw [instructionEvents]
    refine (i.event_steady pool).bind fun r => ?_
    cases r with
    | error fault => exact .pure _
    | ok event => exact ih.bind fun following => .pure _

theorem trace_steady (pool : Pool) (code : Code) : Steady pool (code.trace pool) := by
  unfold trace
  cases Instruction.decode code.bytes with
  | error error => exact .pure _
  | ok instructions => exact (instructionEvents_steady pool code _ instructions).bind fun body => .pure _

/-- The events of a body when nothing is remembered. -/
def body (pool : Pool) (code : Code) : Trace := (code.trace pool []).1

end Code

/-- What a replay tells next, with the method whose code it is in: an event, or that the code breaks off. -/
inductive Cue where
  | event (place : Option (String × String)) (event : Event)
  | fault (place : Option (String × String)) (fault : BodyFault)

/-- The cues of a body, without its end. -/
def Code.cues (pool : Pool) (decl : MethodDecl) (code : Code) : List Cue :=
  (code.body pool).events.map (fun e => .event (some (decl.name, decl.descriptor)) (.code e)) ++
    (code.body pool).fault.toList.map (.fault (some (decl.name, decl.descriptor)))

/-- The cues of a method. -/
def Method.cues (pool : Pool) (m : Method) : List Cue :=
  .event none (.method m.decl) ::
    (m.code.toList.flatMap (Code.cues pool m.decl) ++ [.event none (.code .finish)])

/-- The cues of a class after its declaration. -/
def ClassFile.content (c : ClassFile) : List Cue :=
  c.memberEvents.map (fun e => .event none (.member e)) ++ c.methods.flatMap (Method.cues c.pool) ++
    [.event none (.member .finish)]

/-- The cues of a class. -/
def ClassFile.script (c : ClassFile) : List Cue := .event none (.declare (some c.header)) :: c.content

/-- The class and the method that a chain has open. -/
structure Scope where
  opened : Option OpenClass := none
  method : Option OpenMethod := none

variable {σ ε α β : Type}

/-- Lets the chain work; its error is one of the given method's code, if any. -/
def Visit.within (place : Option (String × String)) (step : Visit σ ε α) : Run σ (ReplayError ε) α := fun s =>
  match step s with
  | (.ok a, s) => (.ok a, s)
  | (.error error, s) => (.error ⟨place, .stage error⟩, s)

namespace Chain

/-- Gives the chain one cue. One that belongs to a class or a method that is not open is passed over. -/
def take (chain : Chain σ ε) (scope : Scope) : Cue → Run σ (ReplayError ε) Scope
  | .event place (.declare header) => do
    return ⟨← Visit.within place (chain.declare header), none⟩
  | .event place (.member event) => do
    if let some c := scope.opened then Visit.within place (chain.member c event)
    return scope
  | .event place (.method decl) => do
    if let some c := scope.opened then
      return { scope with method := ← Visit.within place (chain.method c decl) }
    return scope
  | .event place (.code event) => do
    if let some m := scope.method then Visit.within place (chain.code m event)
    return scope
  | .fault place fault => do
    if scope.method.isSome then throw ⟨place, .body fault⟩
    return scope

/-- Gives the chain one cue after the other. -/
def perform (chain : Chain σ ε) (cues : List Cue) (scope : Scope) : Run σ (ReplayError ε) Scope :=
  cues.foldlM chain.take scope

theorem perform_cons (chain : Chain σ ε) (cue : Cue) (cues : List Cue) (scope : Scope) :
    chain.perform (cue :: cues) scope = chain.take scope cue >>= chain.perform cues := rfl

theorem perform_singleton (chain : Chain σ ε) (cue : Cue) (scope : Scope) :
    chain.perform [cue] scope = chain.take scope cue := bind_pure _

theorem perform_append (chain : Chain σ ε) (first second : List Cue) (scope : Scope) :
    chain.perform (first ++ second) scope = chain.perform first scope >>= chain.perform second :=
  List.foldlM_append

end Chain

/-- A replay and a performance go the same way, apart from what is remembered: both end with related values or with
the same error, in the same state. -/
def Mirrors (pool : Pool) (R : α → β → Prop) (x : Replay σ ε α) (y : Run σ (ReplayError ε) β) : Prop :=
  ∀ memo s, Memo.Sound pool memo → ∃ memo', Memo.Sound pool memo' ∧
    ((∃ a b s', x (memo, s) = (.ok a, (memo', s')) ∧ y s = (.ok b, s') ∧ R a b) ∨
      ∃ e s', x (memo, s) = (.error e, (memo', s')) ∧ y s = (.error e, s'))

namespace Mirrors

variable {γ δ : Type} {pool : Pool} {R : α → β → Prop} {S : γ → δ → Prop}

theorem pure {a : α} {b : β} (h : R a b) : Mirrors pool R (Pure.pure a : Replay σ ε α) (Pure.pure b) :=
  fun memo s hm => ⟨memo, hm, .inl ⟨a, b, s, rfl, rfl, h⟩⟩

theorem throw (e : ReplayError ε) :
    Mirrors pool R (MonadExcept.throw e : Replay σ ε α) (MonadExcept.throw e) :=
  fun memo s hm => ⟨memo, hm, .inr ⟨e, s, rfl, rfl⟩⟩

theorem visit (place : Option (String × String)) (step : Visit σ ε α) :
    Mirrors pool Eq (Replay.visit place step) (Visit.within place step) := by
  intro memo s hm
  refine ⟨memo, hm, ?_⟩
  rcases h : step s with ⟨e | a, s'⟩
  · exact .inr ⟨⟨place, .stage e⟩, s', by simp [Replay.visit, h], by simp [Visit.within, h]⟩
  · exact .inl ⟨a, a, s', by simp [Replay.visit, h], by simp [Visit.within, h], rfl⟩

theorem visit_pure {g : α → β} (place : Option (String × String)) (step : Visit σ ε α) (h : ∀ a, R a (g a)) :
    Mirrors pool R (Replay.visit place step) (do return g (← Visit.within place step)) := by
  intro memo s hm
  obtain ⟨memo₁, hm₁, ⟨a, b, s₁, h₁, h₂, rfl⟩ | ⟨e, s₁, h₁, h₂⟩⟩ := visit place step memo s hm
  · exact ⟨memo₁, hm₁, .inl ⟨a, g a, s₁, h₁, Run.bind_ok h₂, h a⟩⟩
  · exact ⟨memo₁, hm₁, .inr ⟨e, s₁, h₁, Run.bind_error h₂⟩⟩

theorem bind {x : Replay σ ε α} {y : Run σ (ReplayError ε) β} {f : α → Replay σ ε γ}
    {g : β → Run σ (ReplayError ε) δ} (hx : Mirrors pool R x y) (hf : ∀ a b, R a b → Mirrors pool S (f a) (g b)) :
    Mirrors pool S (x >>= f) (y >>= g) := by
  intro memo s hm
  obtain ⟨memo₁, hm₁, ⟨a, b, s₁, h, h', hab⟩ | ⟨e, s₁, h, h'⟩⟩ := hx memo s hm
  · rw [Run.bind_ok h, Run.bind_ok h']
    exact hf a b hab memo₁ s₁ hm₁
  · rw [Run.bind_error h, Run.bind_error h']
    exact ⟨memo₁, hm₁, .inr ⟨e, s₁, rfl, rfl⟩⟩

theorem resolve_bind {x : StateM Memo γ} (hx : Steady pool x) {f : γ → Replay σ ε α} {y : Run σ (ReplayError ε) β}
    (hf : Mirrors pool R (f (x []).1) y) : Mirrors pool R (Replay.resolve x >>= f) y := by
  intro memo s hm
  obtain ⟨memo₁, h₁, hm₁⟩ := hx.apply hm
  have hr : Replay.resolve x (memo, s) = ((.ok (x []).1, (memo₁, s)) : Except (ReplayError ε) γ × Memo × σ) := by
    simp only [Replay.resolve, h₁]
  rw [Run.bind_ok hr]
  exact hf memo₁ s hm₁

/-- Telling one event after the other is performing their cues, where each of these leaves the scope as it is. -/
theorem forM {chain : Chain σ ε} {scope : Scope} {f : γ → Replay σ ε PUnit} {cue : γ → Cue} {as : List γ}
    (h : ∀ a ∈ as, Mirrors pool (fun _ after => after = scope) (f a) (chain.take scope (cue a))) :
    Mirrors pool (fun _ after => after = scope) (as.forM f) (chain.perform (as.map cue) scope) := by
  induction as with
  | nil => exact .pure rfl
  | cons a as ih =>
    refine (h a (by simp)).bind fun _ after ha => ?_
    subst ha
    exact ih fun a ha => h a (by simp [ha])

end Mirrors

/-- A cue of the inside of a method. -/
def Cue.OfBody : Cue → Prop
  | .event _ (.code _) => True
  | .fault _ _ => True
  | _ => False

namespace Chain

theorem take_unopened (chain : Chain σ ε) {cue : Cue} (h : cue.OfBody) (opened : Option OpenClass) :
    chain.take ⟨opened, none⟩ cue = pure ⟨opened, none⟩ := by
  match cue, h with
  | .event _ (.code _), _ => rfl
  | .fault _ _, _ => rfl

/-- The inside of a method that is not open is passed over. -/
theorem perform_unopened (chain : Chain σ ε) {cues : List Cue} (h : ∀ cue ∈ cues, cue.OfBody)
    (opened : Option OpenClass) : chain.perform cues ⟨opened, none⟩ = pure ⟨opened, none⟩ := by
  induction cues with
  | nil => rfl
  | cons cue cues ih =>
    rw [perform_cons, chain.take_unopened (h cue (by simp)), pure_bind]
    exact ih fun cue hc => h cue (by simp [hc])

end Chain

theorem Code.cues_ofBody (pool : Pool) (decl : MethodDecl) (code : Code) : ∀ cue ∈ code.cues pool decl, cue.OfBody := by
  intro cue h
  simp only [Code.cues, List.mem_append, List.mem_map] at h
  obtain ⟨e, -, rfl⟩ | ⟨fault, -, rfl⟩ := h <;> trivial

theorem Code.cues_mirror (chain : Chain σ ε) (pool : Pool) (opened : Option OpenClass) (m : OpenMethod)
    (decl : MethodDecl) (code : Code) :
    Mirrors pool (fun _ after => after = ⟨opened, some m⟩) (Replay.code chain pool m decl code)
      (chain.perform (code.cues pool decl) ⟨opened, some m⟩) := by
  refine .resolve_bind (code.trace_steady pool) ?_
  rw [Code.cues, Chain.perform_append]
  refine Mirrors.bind (.forM fun e _ => ?_) fun _ after ha => ?_
  · exact .visit_pure _ _ fun _ => rfl
  · subst ha
    rw [show (code.trace pool []).1 = code.body pool from rfl]
    cases (code.body pool).fault with
    | none => exact .pure rfl
    | some fault => exact .throw _

/-- A method is told as its cues are performed; the class around it stays open. -/
theorem Method.cues_mirror (chain : Chain σ ε) (pool : Pool) (c : OpenClass) (before : Option OpenMethod) (m : Method) :
    Mirrors pool (fun _ after => after.opened = some c) (Replay.method chain pool c m)
      (chain.perform (m.cues pool) ⟨some c, before⟩) := by
  rw [Method.cues, Chain.perform_cons]
  have hopen : Mirrors pool (fun opened after => after = ⟨some c, opened⟩)
      (Replay.visit none (chain.method c m.decl)) (chain.take ⟨some c, before⟩ (.event none (.method m.decl))) :=
    .visit_pure _ _ fun _ => rfl
  refine hopen.bind fun opened after ha => ?_
  subst ha
  cases opened with
  | none =>
    rw [Chain.perform_unopened]
    · exact .pure rfl
    · intro cue hc
      simp only [List.mem_append, List.mem_flatMap, List.mem_singleton] at hc
      obtain ⟨code, -, hc⟩ | rfl := hc
      · exact Code.cues_ofBody pool m.decl code cue hc
      · trivial
  | some opened =>
    rw [Chain.perform_append]
    have hend : Mirrors pool (fun _ after => after.opened = some c)
        (Replay.visit none (chain.code opened .finish))
        (chain.perform [.event none (.code .finish)] ⟨some c, some opened⟩) := by
      rw [Chain.perform_singleton]
      exact .visit_pure _ _ fun _ => rfl
    cases m.code with
    | none => exact hend
    | some code =>
      simp only [Option.toList_some, List.flatMap_cons, List.flatMap_nil, List.append_nil]
      refine Mirrors.bind (Code.cues_mirror chain pool (some c) opened m.decl code) fun _ after ha => ?_
      subst ha
      exact hend

theorem Method.cues_mirror_all (chain : Chain σ ε) (pool : Pool) (c : OpenClass) (before : Option OpenMethod)
    (ms : List Method) :
    Mirrors pool (fun _ after => after.opened = some c) (ms.forM fun m => Replay.method chain pool c m)
      (chain.perform (ms.flatMap (Method.cues pool)) ⟨some c, before⟩) := by
  induction ms generalizing before with
  | nil => exact .pure rfl
  | cons m ms ih =>
    rw [List.flatMap_cons, Chain.perform_append]
    refine Mirrors.bind (Method.cues_mirror chain pool c before m) fun _ after ha => ?_
    obtain ⟨opened, method⟩ := after
    subst ha
    exact ih method

/-- A cue of the inside of a class. -/
def Cue.OfClass : Cue → Prop
  | .event _ (.declare _) => False
  | _ => True

theorem Cue.OfBody.ofClass {cue : Cue} (h : cue.OfBody) : cue.OfClass := by
  match cue, h with
  | .event _ (.code _), _ => trivial
  | .fault _ _, _ => trivial

/-- The inside of a class that is not open is passed over. -/
theorem Chain.perform_undeclared (chain : Chain σ ε) {cues : List Cue} (h : ∀ cue ∈ cues, cue.OfClass) :
    chain.perform cues {} = pure {} := by
  induction cues with
  | nil => rfl
  | cons cue cues ih =>
    have ht : chain.take {} cue = pure {} := by
      match cue, h cue (by simp) with
      | .event _ (.member _), _ => rfl
      | .event _ (.method _), _ => rfl
      | .event _ (.code _), _ => rfl
      | .fault _ _, _ => rfl
    rw [perform_cons, ht, pure_bind]
    exact ih fun cue hc => h cue (by simp [hc])

theorem Method.cues_ofClass (pool : Pool) (m : Method) : ∀ cue ∈ m.cues pool, cue.OfClass := by
  intro cue h
  simp only [Method.cues, List.mem_cons, List.mem_append, List.mem_flatMap, List.not_mem_nil, or_false] at h
  obtain rfl | ⟨code, -, hc⟩ | rfl := h
  · trivial
  · exact (Code.cues_ofBody pool m.decl code cue hc).ofClass
  · trivial

theorem ClassFile.content_ofClass (c : ClassFile) : ∀ cue ∈ c.content, cue.OfClass := by
  intro cue h
  simp only [ClassFile.content, List.mem_append, List.mem_map, List.mem_flatMap, List.mem_singleton] at h
  obtain (⟨e, -, rfl⟩ | ⟨m, -, hc⟩) | rfl := h
  · trivial
  · exact Method.cues_ofClass c.pool m cue hc
  · trivial

theorem ClassFile.script_mirror (chain : Chain σ ε) (c : ClassFile) :
    Mirrors c.pool (fun _ _ => True) (c.replay chain) (chain.perform c.script {}) := by
  have hopen : Mirrors c.pool (fun opened after => after = ⟨opened, none⟩)
      (Replay.visit none (chain.declare (some c.header)))
      (chain.take {} (.event none (.declare (some c.header)))) :=
    .visit_pure _ _ fun _ => rfl
  rw [ClassFile.script, Chain.perform_cons]
  refine hopen.bind fun opened after ha => ?_
  subst ha
  cases opened with
  | none =>
    rw [chain.perform_undeclared c.content_ofClass]
    exact .pure trivial
  | some opened =>
    rw [ClassFile.content, List.append_assoc, Chain.perform_append]
    refine Mirrors.bind (.forM fun e _ => .visit_pure _ _ fun _ => rfl) fun _ after ha => ?_
    subst ha
    rw [Chain.perform_append]
    refine Mirrors.bind (Method.cues_mirror_all chain c.pool opened none c.methods) fun _ after ha => ?_
    obtain ⟨opened', method⟩ := after
    subst ha
    rw [Chain.perform_singleton]
    exact .visit_pure _ _ fun _ => trivial

/-- A replay performs the script of the class, whatever constants are remembered. -/
theorem ClassFile.replay_eq_perform (chain : Chain σ ε) (c : ClassFile) {memo : Memo} (hm : Memo.Sound c.pool memo)
    (s : σ) : ∃ memo', Memo.Sound c.pool memo' ∧
      c.replay chain (memo, s) =
        ((chain.perform c.script {} s).1.map fun _ => (), (memo', (chain.perform c.script {} s).2)) := by
  obtain ⟨memo', hm', ⟨_, after, s', h, h', -⟩ | ⟨e, s', h, h'⟩⟩ := c.script_mirror chain memo s hm
  · exact ⟨memo', hm', by rw [h, h']; rfl⟩
  · exact ⟨memo', hm', by rw [h, h']; rfl⟩

/-- A replay for which nothing is remembered at first: its outcome and the state that it leaves. -/
def ClassFile.play (c : ClassFile) (chain : Chain σ ε) (s : σ) : Except (ReplayError ε) Unit × σ :=
  ((c.replay chain ([], s)).1, (c.replay chain ([], s)).2.2)

theorem ClassFile.play_eq_perform (chain : Chain σ ε) (c : ClassFile) (s : σ) :
    c.play chain s = ((chain.perform c.script {} s).1.map fun _ => (), (chain.perform c.script {} s).2) := by
  obtain ⟨memo, -, h⟩ := c.replay_eq_perform chain (Memo.sound_nil c.pool) s
  rw [ClassFile.play, h]

end Linkage
