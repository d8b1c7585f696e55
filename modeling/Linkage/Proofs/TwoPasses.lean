import Linkage.Proofs.CodeFaults

/-!
Code is told as by two passes over its bytes. A decoder that gives each instruction to a callback meets the same
instructions whatever the callback does. So a first pass that only collects the labels fails exactly where a second one
that tells the events would break off: nothing is told before the first one has come to its end, and the second one
meets no decoding error any more.
-/
namespace Linkage

namespace Instruction

/-- What decoding comes to after these instructions. -/
def ending (is : List Instruction) : Option CodeError → Except CodeError (List Instruction)
  | none => .ok is
  | some e => .error e

section

variable {σ ε : Type} (fail : CodeError → ε) (act : Instruction → Run σ ε Unit)

/-- Reads at most so many instructions, and gives each to the callback before it reads the next. -/
def walkFrom : Nat → Cursor → Run σ ε Unit
  | 0, _ => pure ()
  | fuel + 1, c =>
    if c.rest.isEmpty then pure ()
    else
      match read c with
      | .error e => throw (fail e)
      | .ok (i, c) => do
        act i
        walkFrom fuel c

/-- Gives the instructions of code to a callback, one after the other. -/
def walk (code : Bytes) : Run σ ε Unit := walkFrom fail act code.length (Cursor.ofBytes code)

end

theorem walkFrom_eq (fuel : Nat) (c : Cursor) : ∃ is fault, readAll fuel c = ending is fault ∧
    ∀ {σ ε : Type} (fail : CodeError → ε) (act : Instruction → Run σ ε Unit),
      walkFrom fail act fuel c = (do
        is.forM act
        if let some e := fault then throw (fail e)) := by
  induction fuel generalizing c with
  | zero => exact ⟨[], none, rfl, fun _ _ => rfl⟩
  | succ fuel ih =>
    by_cases hend : c.rest.isEmpty = true
    · refine ⟨[], none, ?_, fun fail act => ?_⟩
      · simp [readAll, hend, ending]
      · rw [walkFrom, if_pos hend]
        rfl
    · cases hread : read c with
      | error e =>
        refine ⟨[], some e, ?_, fun fail act => ?_⟩
        · rw [readAll, if_neg hend, hread]
          rfl
        · rw [walkFrom, if_neg hend, hread]
          rfl
      | ok r =>
        obtain ⟨is, fault, hall, hwalk⟩ := ih r.2
        refine ⟨r.1 :: is, fault, ?_, fun fail act => ?_⟩
        · rw [readAll, if_neg hend, hread, ok_bind]
          dsimp only
          rw [hall]
          cases fault <;> rfl
        · rw [walkFrom, if_neg hend, hread]
          dsimp only
          rw [hwalk fail act]
          exact (bind_assoc (act r.1) (fun _ => is.forM act) _).symm

/-- Whatever the callback does, it is given the same instructions, and where all of them decode it is given all. -/
theorem walk_eq (code : Bytes) : ∃ is fault, decode code = ending is fault ∧
    ∀ {σ ε : Type} (fail : CodeError → ε) (act : Instruction → Run σ ε Unit),
      walk fail act code = (do
        is.forM act
        if let some e := fault then throw (fail e)) :=
  walkFrom_eq code.length (Cursor.ofBytes code)

theorem walk_of_decode_ok {σ ε : Type} {code : Bytes} {is : List Instruction} (h : decode code = .ok is)
    (fail : CodeError → ε) (act : Instruction → Run σ ε Unit) : walk fail act code = is.forM act := by
  obtain ⟨is', fault, hdecode, hwalk⟩ := walk_eq code
  rw [h] at hdecode
  cases fault with
  | some e => cases hdecode
  | none =>
    cases hdecode
    rw [hwalk fail act]
    exact bind_pure (is.forM act)

/-- A pass that collects the branch targets. -/
def collect (code : Bytes) : Except CodeError Unit × List Label :=
  walk id (fun i => modify (· ++ i.targets)) code []

theorem forM_collect (is : List Instruction) (targets : List Label) :
    (is.forM (fun i => modify (· ++ i.targets)) : Run (List Label) CodeError Unit) targets =
      (.ok (), targets ++ is.flatMap (·.targets)) := by
  induction is generalizing targets with
  | nil => simp [List.forM]
  | cons i is ih =>
    have hi : (modify (· ++ i.targets) : Run (List Label) CodeError Unit) targets =
        (.ok (), targets ++ i.targets) := rfl
    refine (Run.bind_ok hi).trans ?_
    rw [ih]
    simp

/-- The first pass ends as decoding does, with the targets of all instructions if it ends well. -/
theorem collect_eq (code : Bytes) :
    (∀ is, decode code = .ok is → collect code = (.ok (), is.flatMap (·.targets))) ∧
      ∀ e, decode code = .error e → (collect code).1 = .error e := by
  obtain ⟨is, fault, hdecode, hwalk⟩ := walk_eq code
  rw [collect, hwalk, Run.bind_ok (forM_collect is [])]
  cases fault with
  | none =>
    refine ⟨fun is' h => ?_, fun e h => ?_⟩
    · cases hdecode.symm.trans h
      rfl
    · cases hdecode.symm.trans h
  | some e =>
    refine ⟨fun is' h => ?_, fun e' h => ?_⟩
    · cases hdecode.symm.trans h
    · cases hdecode.symm.trans h
      rfl

end Instruction

variable {σ ε : Type}

namespace Replay

/-- Tells an instruction after its label and lines. -/
def instruction (chain : Chain σ ε) (pool : Pool) (m : OpenMethod) (place : Option (String × String)) (code : Code)
    (labels : Std.TreeSet Label) (i : Instruction) : Replay σ ε Unit := do
  (code.labelEvents labels i.offset).forM fun event => visit place (chain.code m event)
  match ← resolve (i.event pool).run with
  | .error cause => throw ⟨place, .body (.operand i.opcode i.offset cause)⟩
  | .ok event => visit place (chain.code m event)

/-- Tells the instructions of code while it decodes them. -/
def secondPass (chain : Chain σ ε) (pool : Pool) (m : OpenMethod) (place : Option (String × String)) (code : Code)
    (labels : Std.TreeSet Label) : Replay σ ε Unit :=
  Instruction.walk (fun e => ⟨place, .body (.code e)⟩) (instruction chain pool m place code labels) code.bytes

/-- Tells the code of an open method in two passes over its bytes: the first one collects the labels. -/
def codeInPasses (chain : Chain σ ε) (pool : Pool) (m : OpenMethod) (decl : MethodDecl) (code : Code) :
    Replay σ ε Unit :=
  let place := some (decl.name, decl.descriptor)
  match Instruction.collect code.bytes with
  | (.error e, _) => throw ⟨place, .body (.code e)⟩
  | (.ok (), targets) => do
    let labels := Std.TreeSet.ofList (code.references [] ++ targets)
    visit place (chain.code m .start)
    code.handlers.forM fun h => visit place (chain.code m (.tryCatch h.start h.stop h.handler h.type))
    secondPass chain pool m place code labels
    (code.closingEvents labels).forM fun event => visit place (chain.code m event)

end Replay

namespace Trace

/-- The cues of the events and of the fault behind them. -/
def cues (t : Trace) (place : Option (String × String)) : List Cue :=
  t.events.map (fun e => .event place (.code e)) ++ t.fault.toList.map (.fault place)

end Trace

namespace Code

variable {pool : Pool} {code : Code} {labels : Std.TreeSet Label} {i : Instruction} {is : List Instruction}

/-- The events of the instructions when nothing is remembered. -/
def told (pool : Pool) (code : Code) (labels : Std.TreeSet Label) (is : List Instruction) : Trace :=
  (code.instructionEvents pool labels is []).1

theorem told_cons : code.told pool labels (i :: is) =
    match ((i.event pool).run []).1 with
    | .error cause => ⟨code.labelEvents labels i.offset, some (.operand i.opcode i.offset cause)⟩
    | .ok event => { code.told pool labels is with
        events := code.labelEvents labels i.offset ++ event :: (code.told pool labels is).events } := by
  obtain ⟨r, hr⟩ := i.event_steady pool
  obtain ⟨memo, hevent, hm⟩ := hr [] (Memo.sound_nil pool)
  simp only [told, instructionEvents, bind, StateT.bind, hevent]
  cases r with
  | error cause => rfl
  | ok event =>
    obtain ⟨memo', hrest, -⟩ := (instructionEvents_steady pool code labels is).apply hm
    simp only [StateT.bind, hrest]
    rfl

theorem references_append (code : Code) (is : List Instruction) :
    code.references [] ++ is.flatMap (·.targets) = code.references is := by
  simp [references]

theorem body_of_decode_ok (h : Instruction.decode code.bytes = .ok is) :
    let labels := Std.TreeSet.ofList (code.references is)
    let told := code.told pool labels is
    code.body pool = { told with
      events := .start :: (code.handlers.map (fun h => CodeEvent.tryCatch h.start h.stop h.handler h.type) ++
        told.events ++ if told.fault.isNone then code.closingEvents labels else []) } := by
  simp only [body, trace, h, told]
  rfl

/-- The cues of code that decodes: its start and handlers, the instructions, and the end if no operand fails. -/
theorem cues_of_decode_ok (h : Instruction.decode code.bytes = .ok is) (decl : MethodDecl) :
    let place := some (decl.name, decl.descriptor)
    let labels := Std.TreeSet.ofList (code.references is)
    let told := code.told pool labels is
    code.cues pool decl = .event place (.code .start) ::
      (code.handlers.map (fun h => .event place (.code (.tryCatch h.start h.stop h.handler h.type))) ++
        (told.cues place ++
          (if told.fault.isNone then code.closingEvents labels else []).map fun e => .event place (.code e))) := by
  intro place labels told
  rw [cues, body_of_decode_ok h]
  change _ ++ told.fault.toList.map _ = _
  cases hfault : told.fault <;> simp [Trace.cues, hfault, place, labels, told]

end Code

section

variable {chain : Chain σ ε} {pool : Pool} {opened : Option OpenClass} {m : OpenMethod}
  {place : Option (String × String)} {code : Code} {labels : Std.TreeSet Label}

theorem Code.events_mirror (events : List CodeEvent) :
    Mirrors pool (fun _ after => after = ⟨opened, some m⟩)
      (events.forM fun event => Replay.visit place (chain.code m event))
      (chain.perform (events.map fun e => .event place (.code e)) ⟨opened, some m⟩) :=
  .forM fun _ _ => .visit_pure _ _ fun _ => rfl

/-- Telling the instructions one by one is performing the cues of their events, and comes to its end only if none of
the operands fails. -/
theorem Code.instructions_mirror (is : List Instruction) :
    Mirrors pool (fun _ after => after = ⟨opened, some m⟩ ∧ (code.told pool labels is).fault = none)
      (is.forM (Replay.instruction chain pool m place code labels))
      (chain.perform ((code.told pool labels is).cues place) ⟨opened, some m⟩) := by
  induction is with
  | nil => exact .pure ⟨rfl, rfl⟩
  | cons i is ih =>
    have hsplit : (i :: is).forM (Replay.instruction chain pool m place code labels) = (do
        (code.labelEvents labels i.offset).forM fun event => Replay.visit place (chain.code m event)
        match ← Replay.resolve (i.event pool).run with
        | .error cause => throw ⟨place, .body (.operand i.opcode i.offset cause)⟩
        | .ok event => do
          Replay.visit place (chain.code m event)
          is.forM (Replay.instruction chain pool m place code labels)) := by
      change (Replay.instruction chain pool m place code labels i >>= fun _ => is.forM _) = _
      simp only [Replay.instruction, bind_assoc]
      refine bind_congr fun _ => bind_congr fun r => ?_
      cases r <;> rfl
    rw [hsplit, Code.told_cons]
    cases hr : ((i.event pool).run []).1 with
    | error cause =>
      rw [Trace.cues, Chain.perform_append]
      refine Mirrors.bind (Code.events_mirror _) fun _ after ha => ?_
      subst ha
      refine .resolve_bind (i.event_steady pool) ?_
      rw [hr]
      exact .throw _
    | ok event =>
      simp only [Trace.cues, List.map_append, List.map_cons, List.append_assoc, List.cons_append]
      rw [Chain.perform_append]
      refine Mirrors.bind (Code.events_mirror _) fun _ after ha => ?_
      subst ha
      refine .resolve_bind (i.event_steady pool) ?_
      rw [hr, Chain.perform_cons]
      have htold : Mirrors pool (fun _ after => after = ⟨opened, some m⟩) (Replay.visit place (chain.code m event))
          (chain.take ⟨opened, some m⟩ (.event place (.code event))) := .visit_pure _ _ fun _ => rfl
      refine htold.bind fun _ after ha => ?_
      subst ha
      exact ih

/-- Code is told as by two passes over its bytes. -/
theorem Code.passes_mirror (chain : Chain σ ε) (pool : Pool) (opened : Option OpenClass) (m : OpenMethod)
    (decl : MethodDecl) (code : Code) :
    Mirrors pool (fun _ after => after = ⟨opened, some m⟩) (Replay.codeInPasses chain pool m decl code)
      (chain.perform (code.cues pool decl) ⟨opened, some m⟩) := by
  obtain ⟨hok, herror⟩ := Instruction.collect_eq code.bytes
  rw [Replay.codeInPasses]
  cases hd : Instruction.decode code.bytes with
  | error e =>
    have hcollect := herror e hd
    have hbody : code.body pool = ⟨[], some (.code e)⟩ := by simp [Code.body, Code.trace, hd]; rfl
    rcases hc : Instruction.collect code.bytes with ⟨r, targets⟩
    rw [hc] at hcollect
    cases hcollect
    rw [Code.cues, hbody]
    exact .throw _
  | ok is =>
    rw [hok is hd, Code.cues_of_decode_ok hd, Chain.perform_cons]
    dsimp only
    rw [Code.references_append, Replay.secondPass, Instruction.walk_of_decode_ok hd]
    have hstart : Mirrors pool (fun _ after => after = ⟨opened, some m⟩)
        (Replay.visit (some (decl.name, decl.descriptor)) (chain.code m .start))
        (chain.take ⟨opened, some m⟩ (.event (some (decl.name, decl.descriptor)) (.code .start))) :=
      .visit_pure _ _ fun _ => rfl
    refine hstart.bind fun _ after ha => ?_
    subst ha
    rw [Chain.perform_append]
    refine Mirrors.bind (.forM fun _ _ => .visit_pure _ _ fun _ => rfl) fun _ after ha => ?_
    subst ha
    rw [Chain.perform_append]
    refine Mirrors.bind (Code.instructions_mirror is) fun _ after ha => ?_
    obtain ⟨rfl, hfault⟩ := ha
    rw [hfault]
    exact Code.events_mirror _

end

namespace Replay

variable {α β : Type} {pool : Pool} {Q : ReplayError ε → Prop}

/-- A sound memo stays sound, and an early end has a reason as told. -/
def EndsIn (pool : Pool) (Q : ReplayError ε → Prop) (x : Replay σ ε α) : Prop :=
  ∀ memo s, Memo.Sound pool memo → Memo.Sound pool (x (memo, s)).2.1 ∧ ∀ e, (x (memo, s)).1 = .error e → Q e

namespace EndsIn

theorem pure (a : α) : EndsIn pool Q (Pure.pure a : Replay σ ε α) := fun _ _ hm => ⟨hm, fun _ h => nomatch h⟩

theorem throw {e : ReplayError ε} (h : Q e) : EndsIn pool Q (MonadExcept.throw e : Replay σ ε α) := by
  refine fun _ _ hm => ⟨hm, fun e' he => ?_⟩
  cases he
  exact h

theorem visit {place : Option (String × String)} (h : ∀ error, Q ⟨place, .stage error⟩) (step : Visit σ ε α) :
    EndsIn pool Q (Replay.visit place step) := by
  intro memo s hm
  rcases hs : step s with ⟨error | a, s'⟩
  · have hvisit : Replay.visit place step (memo, s) = (.error ⟨place, .stage error⟩, (memo, s')) := by
      simp [Replay.visit, hs]
    rw [hvisit]
    refine ⟨hm, fun e he => ?_⟩
    cases he
    exact h error
  · have hvisit : Replay.visit place step (memo, s) = (.ok a, (memo, s')) := by simp [Replay.visit, hs]
    rw [hvisit]
    refine ⟨hm, fun e he => ?_⟩
    cases he

theorem bind {x : Replay σ ε α} {f : α → Replay σ ε β} (hx : EndsIn pool Q x) (hf : ∀ a, EndsIn pool Q (f a)) :
    EndsIn pool Q (x >>= f) := by
  intro memo s hm
  obtain ⟨hm', hQ⟩ := hx memo s hm
  rcases h : x (memo, s) with ⟨e | a, memo', s'⟩ <;> rw [h] at hm' hQ
  · rw [Run.bind_error h]
    refine ⟨hm', fun e' he => ?_⟩
    cases he
    exact hQ e rfl
  · rw [Run.bind_ok h]
    exact hf a memo' s' hm'

theorem forM {f : α → Replay σ ε PUnit} {as : List α} (h : ∀ a ∈ as, EndsIn pool Q (f a)) :
    EndsIn pool Q (as.forM f) := by
  induction as with
  | nil => exact .pure _
  | cons a as ih => exact (h a (by simp)).bind fun _ => ih fun a ha => h a (by simp [ha])

theorem of_mirrors {R : α → β → Prop} {x : Replay σ ε α} {y : Run σ (ReplayError ε) β} (h : Mirrors pool R x y) :
    EndsIn pool (fun _ => True) x := by
  intro memo s hm
  obtain ⟨memo', hm', ⟨_, _, _, hx, -⟩ | ⟨_, _, hx, -⟩⟩ := h memo s hm <;>
    exact ⟨by rw [hx]; exact hm', fun _ _ => trivial⟩

end EndsIn

end Replay

/-- The error is one of the chain, or an operand of one of the instructions does not resolve. -/
def ReplayError.OfTelling (pool : Pool) (place : Option (String × String)) (is : List Instruction)
    (e : ReplayError ε) : Prop :=
  e.method = place ∧ ((∃ error, e.fault = .stage error) ∨
    ∃ i ∈ is, ∃ cause : PoolFault, cause.OfReference pool ∧ e.fault = .body (.operand i.opcode i.offset cause))

/-- Where the code decodes, the second pass breaks off only for an error of the chain or of the pool. -/
theorem Replay.secondPass_endsIn {chain : Chain σ ε} {pool : Pool} {m : OpenMethod} {place : Option (String × String)}
    {code : Code} {is : List Instruction} (h : Instruction.decode code.bytes = .ok is) (labels : Std.TreeSet Label) :
    EndsIn pool (ReplayError.OfTelling pool place is) (secondPass chain pool m place code labels) := by
  have hstage (step : Visit σ ε Unit) : EndsIn pool (ReplayError.OfTelling pool place is) (visit place step) :=
    .visit (fun error => ⟨rfl, .inl ⟨error, rfl⟩⟩) step
  rw [secondPass, Instruction.walk_of_decode_ok h]
  refine .forM fun i hi => (EndsIn.forM fun event _ => hstage _).bind fun _ memo s hm => ?_
  obtain ⟨r, hyields, hfails⟩ := i.event_yields pool
  obtain ⟨memo', hevent, hm'⟩ := hyields memo hm
  have hresolve : resolve (i.event pool).run (memo, s) =
      ((.ok r, (memo', s)) : Except (ReplayError ε) (Except PoolFault CodeEvent) × Memo × σ) := by
    have hrun : (i.event pool).run memo = (r, memo') := hevent
    simp only [resolve, hrun]
  rw [Run.bind_ok hresolve]
  cases r with
  | error cause => exact EndsIn.throw ⟨rfl, .inr ⟨i, hi, cause, hfails cause rfl, rfl⟩⟩ memo' s hm'
  | ok event => exact hstage _ memo' s hm'

theorem Replay.codeInPasses_endsIn {code : Code} {is : List Instruction}
    (h : Instruction.decode code.bytes = .ok is) (chain : Chain σ ε) (pool : Pool) (m : OpenMethod)
    (decl : MethodDecl) :
    EndsIn pool (ReplayError.OfTelling pool (some (decl.name, decl.descriptor)) is)
      (codeInPasses chain pool m decl code) := by
  have hstage (step : Visit σ ε Unit) :
      EndsIn pool (ReplayError.OfTelling pool (some (decl.name, decl.descriptor)) is)
        (visit (some (decl.name, decl.descriptor)) step) :=
    .visit (fun error => ⟨rfl, .inl ⟨error, rfl⟩⟩) step
  rw [codeInPasses, (Instruction.collect_eq code.bytes).1 is h]
  refine (hstage _).bind fun _ => (EndsIn.forM fun _ _ => hstage _).bind fun _ => ?_
  exact (secondPass_endsIn h _).bind fun _ => .forM fun _ _ => hstage _

/-- Telling code and telling it in two passes end alike, apart from what is remembered. -/
theorem Replay.codeInPasses_eq {pool : Pool} {memo : Memo} (hm : Memo.Sound pool memo) (chain : Chain σ ε)
    (m : OpenMethod) (decl : MethodDecl) (code : Code) (s : σ) :
    (codeInPasses chain pool m decl code (memo, s)).1 = (Replay.code chain pool m decl code (memo, s)).1 ∧
      (codeInPasses chain pool m decl code (memo, s)).2.2 = (Replay.code chain pool m decl code (memo, s)).2.2 := by
  obtain ⟨memo₁, -, h₁⟩ := Code.passes_mirror chain pool none m decl code memo s hm
  obtain ⟨memo₂, -, h₂⟩ := Code.cues_mirror chain pool none m decl code memo s hm
  obtain ⟨_, _, s₁, hx₁, hy₁, -⟩ | ⟨e₁, s₁, hx₁, hy₁⟩ := h₁
  · obtain ⟨_, _, s₂, hx₂, hy₂, -⟩ | ⟨e₂, s₂, hx₂, hy₂⟩ := h₂
    · cases hy₁.symm.trans hy₂
      rw [hx₁, hx₂]
      exact ⟨rfl, rfl⟩
    · cases hy₁.symm.trans hy₂
  · obtain ⟨_, _, s₂, hx₂, hy₂, -⟩ | ⟨e₂, s₂, hx₂, hy₂⟩ := h₂
    · cases hy₁.symm.trans hy₂
    · cases hy₁.symm.trans hy₂
      rw [hx₁, hx₂]
      exact ⟨rfl, rfl⟩

end Linkage
