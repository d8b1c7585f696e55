import Linkage.Proofs.CodeFaults
import Linkage.Proofs.Extraction
import Linkage.Proofs.ParseFaults

/-!
All the ways in which reading a class and telling it can end, for any bytes. An error that is met on the way is one of
four that a caller can test for, except for two that are about the operands of a switch.
-/
namespace Linkage

/-- The errors that a caller can test for. -/
inductive Sentinel where
  | invalidMagic
  | truncated
  | constantPool
  | unknownOpcode
deriving Repr, DecidableEq

namespace Sentinel

def text : Sentinel → String
  | .invalidMagic => "classfile: invalid magic"
  | .truncated => "classfile: truncated data"
  | .constantPool => "classfile: invalid constant pool"
  | .unknownOpcode => "classfile: unknown opcode"

/-- The message has the text of the sentinel in it. -/
def Told (s : Sentinel) (message : String) : Prop := ∃ before after, message = before ++ s.text ++ after

variable {s : Sentinel} {message : String}

theorem Told.append (h : s.Told message) (tail : String) : s.Told (message ++ tail) := by
  obtain ⟨before, after, rfl⟩ := h
  exact ⟨before, after ++ tail, String.append_assoc⟩

theorem Told.behind (h : s.Told message) (head : String) : s.Told (head ++ message) := by
  obtain ⟨before, after, rfl⟩ := h
  exact ⟨head ++ before, after, by simp only [String.append_assoc]⟩

theorem told_truncation (t : Truncation) : truncated.Told t.message := by
  have hhead : truncated.Told "classfile: truncated data: need " := ⟨"", ": need ", by decide +kernel⟩
  exact ((((hhead.append _).append _).append _).append _).append _

theorem told_poolFault (fault : PoolFault) : constantPool.Told fault.message := by
  have hhead : constantPool.Told "classfile: invalid constant pool: " := ⟨"", ": ", by decide +kernel⟩
  exact hhead.append _

end Sentinel

/-- The sentinel of a fault that is met in reading a class. -/
def ParseFault.sentinel : ParseFault → Sentinel
  | .magic => .invalidMagic
  | .truncated _ => .truncated
  | .pool _ => .constantPool

theorem ParseError.told (e : ParseError) : e.fault.sentinel.Told e.message := by
  refine Sentinel.Told.behind ?_ _
  cases e.fault with
  | magic => exact ⟨"", "", by decide +kernel⟩
  | truncated t => exact Sentinel.told_truncation t
  | pool fault => exact Sentinel.told_poolFault fault

/-- The sentinel of a fault that is met in telling a class, if it has one. -/
def BodyFault.sentinel? : BodyFault → Option Sentinel
  | .code (.unknown _ _) | .code (.notWide _ _) => some .unknownOpcode
  | .code (.operands _ _ _) | .code (.truncated _) => some .truncated
  | .code (.switchBounds _ _ _) | .code (.switchCount _) => none
  | .operand _ _ _ => some .constantPool

/-- The message tells of the sentinel; the only faults without one are those of the operands of a switch. -/
def BodyFault.Classified (fault : BodyFault) : Prop :=
  match fault.sentinel? with
  | some sentinel => sentinel ≠ .invalidMagic ∧ sentinel.Told fault.message
  | none => (∃ offset low high, fault = .code (.switchBounds offset low high)) ∨
    ∃ offset, fault = .code (.switchCount offset)

theorem BodyFault.classified (fault : BodyFault) : fault.Classified := by
  cases fault with
  | operand op offset cause => exact ⟨by decide, (Sentinel.told_poolFault cause).behind _⟩
  | code e =>
    cases e with
    | unknown op offset =>
      have hhead : Sentinel.unknownOpcode.Told "classfile: unknown opcode: " := ⟨"", ": ", by decide +kernel⟩
      exact ⟨by decide, ((hhead.append _).append _).append _⟩
    | notWide op offset =>
      have hhead : Sentinel.unknownOpcode.Told "classfile: unknown opcode: wide " := ⟨"", ": wide ", by decide +kernel⟩
      exact ⟨by decide, ((hhead.append _).append _).append _⟩
    | operands op offset t => exact ⟨by decide, (Sentinel.told_truncation t).behind _⟩
    | truncated t => exact ⟨by decide, Sentinel.told_truncation t⟩
    | switchBounds offset low high => exact .inl ⟨offset, low, high, rfl⟩
    | switchCount offset => exact .inr ⟨offset, rfl⟩

/-! Telling a class to a chain that refuses nothing. -/

variable {σ ε α β : Type}

/-- Gives a value on every state. -/
def Run.Succeeds (x : Run σ ε α) : Prop := ∀ s, ∃ a, (x s).1 = .ok a

namespace Run.Succeeds

theorem pure (a : α) : Succeeds (Pure.pure a : Run σ ε α) := fun _ => ⟨a, rfl⟩

theorem bind {x : Run σ ε α} {f : α → Run σ ε β} (hx : Succeeds x) (hf : ∀ a, Succeeds (f a)) :
    Succeeds (x >>= f) := by
  intro s
  obtain ⟨a, ha⟩ := hx s
  rw [Run.bind_ok (Prod.ext ha rfl)]
  exact hf a (x s).2

theorem within {x : Visit σ ε α} (hx : Succeeds x) (place : Option (String × String)) :
    Succeeds (Visit.within place x) := by
  intro s
  obtain ⟨a, ha⟩ := hx s
  rw [Visit.within, show x s = (.ok a, (x s).2) from Prod.ext ha rfl]
  exact ⟨a, rfl⟩

end Run.Succeeds

/-- Neither the sink nor a receiver ever fails, and a class that is observed has a name. -/
structure Chain.NeverFails (chain : Chain σ ε) (header : Header) : Prop where
  sink : ∀ event, (chain.sink event).Succeeds
  receivers : ∀ receiver, .dependency receiver ∈ chain.stages → receiver.NeverFails
  named : chain.observed = true → header.name ≠ ""

namespace Chain.NeverFails

variable {chain : Chain σ ε} {header : Header} (h : chain.NeverFails header)
include h

theorem tell (event : Event) : (chain.sink.tell event).Succeeds := (h.sink event).bind fun _ => .pure _

theorem report (access : Access) : (chain.report access).Succeeds := by
  have hstages {stages : List (Stage σ ε)} (hs : ∀ stage ∈ stages, stage ∈ chain.stages) :
      Run.Succeeds (stages.forM (Stage.report access)) := by
    induction stages with
    | nil => exact .pure _
    | cons stage rest ih =>
      have hstage : (stage.report access).Succeeds := by
        cases stage with
        | forward => exact .pure _
        | dependency receiver => exact fun s => ⟨(), h.receivers receiver (hs _ (by simp)) access s⟩
      exact hstage.bind fun _ => ih fun stage hr => hs stage (by simp [hr])
  exact hstages fun _ hs => hs

theorem declare : (chain.declare (some header)).Succeeds := by
  rw [chain.declare_eq h.named]
  exact (h.sink _).bind fun _ => .pure _

theorem member (c : OpenClass) (event : MemberEvent) : (chain.member c event).Succeeds := by
  rw [chain.member_eq]
  split
  · exact h.tell _
  · exact .pure _

theorem method (c : OpenClass) (decl : MethodDecl) : (chain.method c decl).Succeeds := by
  have hwants : (chain.wants c decl).Succeeds := by
    unfold wants
    split
    · exact h.sink _
    · exact .pure _
  rw [chain.method_eq]
  exact hwants.bind fun _ => .pure _

theorem code (m : OpenMethod) (event : CodeEvent) : (chain.code m event).Succeeds := by
  have hsink : Run.Succeeds (if m.reaches then chain.sink.tell (.code event) else pure () : Visit σ ε Unit) := by
    split
    · exact h.tell _
    · exact .pure _
  rw [chain.code_eq]
  cases event.access? m.source with
  | none => exact hsink
  | some access => exact (h.report access).bind fun _ => hsink

/-- A cue of the inside of a class is taken, unless it is the fault that the code has. -/
theorem take (scope : Scope) {cue : Cue} (hcue : cue.OfClass) (s : σ) :
    (∃ scope', (chain.take scope cue s).1 = .ok scope') ∨
      ∃ place fault, cue = .fault place fault ∧ (chain.take scope cue s).1 = .error ⟨place, .body fault⟩ := by
  match cue, hcue with
  | .event place (.member event), _ =>
    left
    unfold Chain.take
    cases scope.opened with
    | none => exact ⟨_, rfl⟩
    | some c => exact ((h.member c event).within place).bind (fun _ => .pure _) s
  | .event place (.method decl), _ =>
    left
    unfold Chain.take
    cases scope.opened with
    | none => exact ⟨_, rfl⟩
    | some c => exact ((h.method c decl).within place).bind (fun _ => .pure _) s
  | .event place (.code event), _ =>
    left
    unfold Chain.take
    cases scope.method with
    | none => exact ⟨_, rfl⟩
    | some m => exact ((h.code m event).within place).bind (fun _ => .pure _) s
  | .fault place fault, _ =>
    cases hm : scope.method with
    | none => exact .inl ⟨scope, by rw [Chain.take, hm]; rfl⟩
    | some m => exact .inr ⟨place, fault, rfl, by rw [Chain.take, hm]; rfl⟩

theorem perform (scope : Scope) {cues : List Cue} (hcues : ∀ cue ∈ cues, cue.OfClass) (s : σ) :
    (∃ scope', (chain.perform cues scope s).1 = .ok scope') ∨
      ∃ place fault, .fault place fault ∈ cues ∧ (chain.perform cues scope s).1 = .error ⟨place, .body fault⟩ := by
  induction cues generalizing scope s with
  | nil => exact .inl ⟨scope, rfl⟩
  | cons cue cues ih =>
    rw [Chain.perform_cons]
    obtain ⟨scope', ht⟩ | ⟨place, fault, rfl, ht⟩ := h.take scope (hcues cue (by simp)) s
    · rw [Run.bind_ok (Prod.ext ht rfl)]
      obtain hok | ⟨place, fault, hmem, herror⟩ :=
        ih scope' (fun cue hc => hcues cue (by simp [hc])) (chain.take scope cue s).2
      · exact .inl hok
      · exact .inr ⟨place, fault, by simp [hmem], herror⟩
    · rw [Run.bind_error (Prod.ext ht rfl)]
      exact .inr ⟨place, fault, by simp, rfl⟩

end Chain.NeverFails

namespace ClassFile

/-- The faults in the script of a class are those of the bodies of its methods. -/
theorem fault_mem_content {c : ClassFile} {place : Option (String × String)} {fault : BodyFault}
    (h : .fault place fault ∈ c.content) :
    ∃ m ∈ c.methods, ∃ code ∈ m.code, place = some (m.decl.name, m.decl.descriptor) ∧
      (code.body c.pool).fault = some fault := by
  simp only [content, Method.cues, Code.cues, List.mem_append, List.mem_map, List.mem_flatMap, List.mem_cons,
    Option.mem_toList, reduceCtorEq, and_false, exists_false, false_or, or_false, List.not_mem_nil,
    Cue.fault.injEq] at h
  obtain ⟨m, hm, code, hcode, fault', hfault, rfl, rfl⟩ := h
  exact ⟨m, hm, code, hcode, rfl, hfault⟩

/-- A chain that refuses nothing is told the whole class, up to a fault that the class has. -/
theorem replay_accounted (c : ClassFile) {chain : Chain σ ε} (h : chain.NeverFails c.header) {memo : Memo}
    (hm : Memo.Sound c.pool memo) (s : σ) :
    (c.replay chain (memo, s)).1 = .ok () ∨
      ∃ m ∈ c.methods, ∃ code ∈ m.code, ∃ fault : BodyFault, fault.Of c.pool code.bytes ∧
        (c.replay chain (memo, s)).1 = .error ⟨some (m.decl.name, m.decl.descriptor), .body fault⟩ := by
  obtain ⟨memo', -, hreplay⟩ := c.replay_eq_perform chain hm s
  have hdeclare : Run.Succeeds (chain.take {} (.event none (.declare (some c.header)))) :=
    (h.declare.within none).bind fun _ => .pure _
  obtain ⟨scope, hscope⟩ := hdeclare s
  rw [hreplay, script, Chain.perform_cons, Run.bind_ok (Prod.ext hscope rfl)]
  obtain ⟨scope', hok⟩ | ⟨place, fault, hmem, herror⟩ := h.perform scope c.content_ofClass
    (chain.take {} (.event none (.declare (some c.header))) s).2
  · exact .inl (by rw [hok]; rfl)
  · obtain ⟨m, hm, code, hcode, rfl, hfault⟩ := fault_mem_content hmem
    exact .inr ⟨m, hm, code, hcode, fault, Code.body_fault hfault, by rw [herror]; rfl⟩

/-- For any bytes, reading a class and telling it to a chain that never fails end in one of the ways that are named
here, and no step goes beyond the bytes that there are. -/
theorem parse_and_replay_outcomes (data : Bytes) :
    ((∃ e, parse data = .error e ∧ e.fault.sentinel = .invalidMagic) ↔ 4 ≤ data.length ∧ data.take 4 ≠ magic) ∧
    match parse data with
    | .error e => e.fault.Of data ∧ e.fault.sentinel ≠ .unknownOpcode ∧ e.fault.sentinel.Told e.message
    | .ok c =>
      (∃ last ≤ data.length, Parse.classFile (Cursor.ofBytes data) = .ok (c, Cursor.atPos data last)) ∧
      c.Within data ∧
      (∀ m ∈ c.methods, ∀ code ∈ m.code,
        (∀ fuel, code.bytes.length ≤ fuel →
          Instruction.readAll fuel (Cursor.ofBytes code.bytes) = Instruction.decode code.bytes) ∧
        ∀ instructions, Instruction.decode code.bytes = .ok instructions →
          ∀ i ∈ instructions, i.offset < code.bytes.length) ∧
      ∀ {σ ε : Type} (chain : Chain σ ε), chain.NeverFails c.header →
        ∀ memo s, Memo.Sound c.pool memo →
          (c.replay chain (memo, s)).1 = .ok () ∨
          ∃ m ∈ c.methods, ∃ code ∈ m.code, ∃ fault : BodyFault, fault.Of c.pool code.bytes ∧ fault.Classified ∧
            (c.replay chain (memo, s)).1 = .error ⟨some (m.decl.name, m.decl.descriptor), .body fault⟩ := by
  have hparse := parse_accounted data
  refine ⟨⟨?_, fun h => ⟨_, parse_of_ne_magic h.1 h.2, rfl⟩⟩, ?_⟩
  · rintro ⟨⟨places, fault⟩, he, hsentinel⟩
    rw [he] at hparse
    cases fault with
    | magic => exact hparse
    | truncated t => cases hsentinel
    | pool fault => cases hsentinel
  · cases hp : parse data with
    | error e =>
      rw [hp] at hparse
      refine ⟨hparse, ?_, e.told⟩
      cases e.fault <;> simp [ParseFault.sentinel]
    | ok c =>
      rw [hp] at hparse
      obtain ⟨-, hwithin, hlast⟩ := hparse
      refine ⟨hlast, hwithin, fun m _ code _ => ?_, fun chain h memo s hm => ?_⟩
      · obtain ⟨hends, hoffsets⟩ := Instruction.decode_accounted code.bytes
        refine ⟨hends, fun instructions hd => ?_⟩
        rw [hd] at hoffsets
        exact hoffsets
      · refine (c.replay_accounted h hm s).imp_right ?_
        rintro ⟨m, hm, code, hcode, fault, hfault, herror⟩
        exact ⟨m, hm, code, hcode, fault, hfault, fault.classified, herror⟩

end ClassFile
end Linkage
