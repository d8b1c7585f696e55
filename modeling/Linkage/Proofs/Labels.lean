import Linkage.Proofs.Recording
import Linkage.Proofs.Tiling

/-!
Where labels and lines stand. The offsets that a body refers to are gathered from its handlers, its lines and its
branches before any event is told; each is then told where the decoder comes to it, or after the last instruction. The
labels of a body therefore rise, and those of them that can be told at all are told once.
-/
namespace Linkage

/-- An instruction with this operand may go on at the label. -/
inductive Operand.GoesTo : Operand → Label → Prop
  | jump {target : Int} : GoesTo (.jump target) target
  | tableOtherwise {low high otherwise : Int} {targets : List Int} :
    GoesTo (.tableSwitch low high otherwise targets) otherwise
  | tableEntry {low high otherwise target : Int} {targets : List Int} :
    target ∈ targets → GoesTo (.tableSwitch low high otherwise targets) target
  | lookupOtherwise {otherwise : Int} {cases : List (Int × Int)} : GoesTo (.lookupSwitch otherwise cases) otherwise
  | lookupCase {otherwise key target : Int} {cases : List (Int × Int)} :
    (key, target) ∈ cases → GoesTo (.lookupSwitch otherwise cases) target

theorem Instruction.mem_targets_iff {i : Instruction} {l : Label} : l ∈ i.targets ↔ i.operand.GoesTo l := by
  unfold targets
  constructor
  · intro h
    cases ho : i.operand <;> simp only [ho, List.mem_cons, List.mem_map, List.not_mem_nil, or_false] at h
    case jump target =>
      subst h
      exact .jump
    case tableSwitch low high otherwise targets =>
      obtain rfl | h := h
      · exact .tableOtherwise
      · exact .tableEntry h
    case lookupSwitch otherwise cases =>
      obtain rfl | ⟨⟨key, target⟩, h, rfl⟩ := h
      · exact .lookupOtherwise
      · exact .lookupCase h
  · intro h
    cases ho : i.operand <;> rw [ho] at h <;> cases h
    case jump => simp
    case tableOtherwise => simp
    case tableEntry h => simp [h]
    case lookupOtherwise => simp
    case lookupCase key h => exact List.mem_cons_of_mem _ (List.mem_map.mpr ⟨_, h, rfl⟩)

namespace CodeEvent

def label? : CodeEvent → Option Label
  | .label l => some l
  | _ => none

/-- The labels that are told, in their order. -/
def labels (events : List CodeEvent) : List Label := events.filterMap label?

theorem label?_of_isInstruction {e : CodeEvent} (h : e.isInstruction) : e.label? = none := by
  cases e <;> first | rfl | cases h

end CodeEvent

namespace Code

variable {pool : Pool} {code : Code} {is : List Instruction} {l : Label}

/-- A handler, a line or a branch of the body refers to the label. -/
def Refers (code : Code) (is : List Instruction) (l : Label) : Prop :=
  (∃ h ∈ code.handlers, l = h.start ∨ l = h.stop ∨ l = h.handler) ∨ (∃ line ∈ code.lines, l = line.start) ∨
    ∃ i ∈ is, i.operand.GoesTo l

theorem mem_references_iff : l ∈ code.references is ↔ code.Refers is l := by
  unfold references Refers
  simp only [List.mem_append, List.mem_flatMap, List.mem_map, List.mem_cons, List.not_mem_nil, or_false, or_assoc,
    Instruction.mem_targets_iff, eq_comm]

instance (code : Code) (is : List Instruction) (l : Label) : Decidable (code.Refers is l) :=
  decidable_of_iff _ mem_references_iff

/-- What is told at the offset of an instruction before it: the label, if the body refers to it, and the lines that
start there. -/
def marks (code : Code) (is : List Instruction) (offset : Nat) : List CodeEvent :=
  if code.Refers is offset then
    .label offset :: (code.lines.filter (·.start = offset)).map fun line => .lineNumber line.line offset
  else []

/-- The events of a row of instructions: for each its marks, and then one event of its own. -/
inductive Row (pool : Pool) (code : Code) (all : List Instruction) : List Instruction → List CodeEvent → Prop
  | nil : Row pool code all [] []
  | cons {i : Instruction} {e : CodeEvent} {is : List Instruction} {events : List CodeEvent} :
    Run.Yields (Memo.Sound pool) (i.event pool) (.ok e) → e.isInstruction → Row pool code all is events →
    Row pool code all (i :: is) (code.marks all i.offset ++ e :: events)

/-- The events of a body: its handlers, the row of its instructions, the labels that lie at its end or beyond it, and
its sizes. -/
def Laid (pool : Pool) (code : Code) (is : List Instruction) (body : List CodeEvent) : Prop :=
  ∃ (row : List CodeEvent) (trailing : List Label), Row pool code is is row ∧ trailing.Pairwise (· < ·) ∧
    (∀ l, l ∈ trailing ↔ code.Refers is l ∧ (code.bytes.length : Int) ≤ l) ∧
    body = .start :: (code.handlers.map (fun h => .tryCatch h.start h.stop h.handler h.type) ++ row ++
      trailing.map .label ++ [.maxs code.maxStack code.maxLocals])

theorem labelEvents_eq_marks (offset : Nat) :
    code.labelEvents (Std.TreeSet.ofList (code.references is)) offset = code.marks is offset := by
  unfold labelEvents marks
  simp only [Std.TreeSet.contains_ofList, List.contains_iff_mem, mem_references_iff]
  rfl

theorem events_of_event_ok {labels : Std.TreeSet Label} {i : Instruction} {memo memo' : Memo} {e : CodeEvent}
    (h : i.event pool memo = (.ok e, memo')) :
    (code.instructionEvents pool labels (i :: is) memo).1.events =
      code.labelEvents labels i.offset ++ e :: (code.instructionEvents pool labels is memo').1.events := by
  simp only [instructionEvents, bind, StateT.bind, ExceptT.run, h]
  rfl

/-- Instructions whose operands all resolve are told in a row. -/
theorem row_of_instructionEvents {all : List Instruction} {labels : Std.TreeSet Label}
    (hlabels : ∀ offset, code.labelEvents labels offset = code.marks all offset) {memo : Memo}
    (hm : Memo.Sound pool memo) (h : (code.instructionEvents pool labels is memo).1.fault = none) :
    Row pool code all is (code.instructionEvents pool labels is memo).1.events := by
  induction is generalizing memo with
  | nil => exact .nil
  | cons i is ih =>
    obtain ⟨r, hyields, -⟩ := i.event_yields pool
    obtain ⟨memo', hevent, hm'⟩ := hyields memo hm
    cases r with
    | error cause =>
      rw [fault_of_event_error hevent] at h
      cases h
    | ok e =>
      rw [fault_of_event_ok hevent] at h
      rw [events_of_event_ok hevent, hlabels]
      exact .cons hyields (Instruction.event_isInstruction hevent) (ih hm' h)

/-- A body that does not break off is laid out by its instructions. -/
theorem laid_body (h : (code.body pool).fault = none) :
    ∃ is, Instruction.decode code.bytes = .ok is ∧ code.Laid pool is (code.body pool).events := by
  cases hd : Instruction.decode code.bytes with
  | error e =>
    rw [body, trace, hd] at h
    cases h
  | ok is =>
    let labels := Std.TreeSet.ofList (code.references is)
    have hbody := body_of_decode hd (Prod.eta (code.instructionEvents pool labels is [])).symm
    have hfault : (code.instructionEvents pool labels is []).1.fault = none := by rwa [hbody] at h
    -- the set lists its labels in rising order, of which the trailing ones are a part
    have hordered : labels.toList.Pairwise (· < ·) := Std.TreeSet.ordered_toList.imp fun h => Int.compare_eq_lt.mp h
    have hrow := row_of_instructionEvents labelEvents_eq_marks (Memo.sound_nil pool) hfault
    refine ⟨is, rfl, _, _, hrow, hordered.filter fun l => (code.bytes.length : Int) ≤ l, fun l => ?_, ?_⟩
    · simp [labels, mem_references_iff]
    · rw [hbody]
      simp only [hfault, labels, closingEvents, Option.isNone_none, if_true, List.append_assoc]

namespace Row

variable {all : List Instruction} {row : List CodeEvent}

theorem labels_marks (offset : Nat) :
    CodeEvent.labels (code.marks all offset) = if code.Refers all offset then [(offset : Label)] else [] := by
  unfold marks
  split
  · simp [CodeEvent.labels, CodeEvent.label?, List.filterMap_map, Function.comp_def]
  · rfl

/-- The labels of a row are the offsets of its instructions that the body refers to. -/
theorem labels_eq (h : Row pool code all is row) :
    CodeEvent.labels row = (is.map fun i => (i.offset : Label)).filter fun l => code.Refers all l := by
  induction h with
  | nil => rfl
  | @cons i e is events _ he _ ih =>
    have hown : CodeEvent.labels (e :: events) = CodeEvent.labels events :=
      List.filterMap_cons_none (CodeEvent.label?_of_isInstruction he)
    have happend : CodeEvent.labels (code.marks all i.offset ++ e :: events) =
        CodeEvent.labels (code.marks all i.offset) ++ CodeEvent.labels (e :: events) := List.filterMap_append
    rw [happend, labels_marks, hown, ih, List.map_cons, List.filter_cons]
    by_cases hrefers : code.Refers all i.offset <;> simp [hrefers]

end Row

/-- The labels that can be told: those that the body refers to and that an instruction starts at, or that lie at the end
of the code or beyond it. -/
def Due (code : Code) (is : List Instruction) (l : Label) : Prop :=
  code.Refers is l ∧ ((∃ i ∈ is, (i.offset : Label) = l) ∨ (code.bytes.length : Int) ≤ l)

instance (code : Code) (is : List Instruction) (l : Label) : Decidable (code.Due is l) :=
  inferInstanceAs (Decidable (_ ∧ _))

namespace Laid

variable {body : List CodeEvent}

theorem labels_eq (h : code.Laid pool is body) :
    ∃ trailing : List Label, trailing.Pairwise (· < ·) ∧
      (∀ l, l ∈ trailing ↔ code.Refers is l ∧ (code.bytes.length : Int) ≤ l) ∧
      CodeEvent.labels body = ((is.map fun i => (i.offset : Label)).filter fun l => code.Refers is l) ++ trailing := by
  obtain ⟨row, trailing, hrow, hordered, hmem, rfl⟩ := h
  refine ⟨trailing, hordered, hmem, ?_⟩
  have hrow : row.filterMap CodeEvent.label? = _ := hrow.labels_eq
  simp only [CodeEvent.labels, List.filterMap_cons, List.filterMap_append, List.filterMap_map, hrow]
  simp [CodeEvent.label?, Function.comp_def]

/-- The labels of a body rise: those of the row with the offsets, and the rest lies behind all of them. -/
theorem pairwise_labels (h : code.Laid pool is body) (hdecode : Instruction.decode code.bytes = .ok is) :
    (CodeEvent.labels body).Pairwise (· < ·) := by
  obtain ⟨trailing, hordered, hmem, hlabels⟩ := h.labels_eq
  have hoffsets : (is.map fun i => (i.offset : Label)).Pairwise (· < ·) := by
    have hnat := (Instruction.decode_eq_ok_iff.mp hdecode).pairwise_offsets
    rw [List.pairwise_map] at hnat ⊢
    exact hnat.imp Int.ofNat_lt.mpr
  have hwithin := (Instruction.decode_accounted code.bytes).2
  rw [hdecode] at hwithin
  rw [hlabels, List.pairwise_append]
  refine ⟨hoffsets.filter _, hordered, fun a ha b hb => ?_⟩
  obtain ⟨i, hi, rfl⟩ := List.mem_map.mp (List.mem_filter.mp ha).1
  have hlt : i.offset < code.bytes.length := hwithin i hi
  have hle : (code.bytes.length : Int) ≤ b := ((hmem b).mp hb).2
  exact Int.lt_of_lt_of_le (Int.ofNat_lt.mpr hlt) hle

theorem mem_labels_iff (h : code.Laid pool is body) (l : Label) : l ∈ CodeEvent.labels body ↔ code.Due is l := by
  obtain ⟨trailing, -, hmem, hlabels⟩ := h.labels_eq
  rw [hlabels, List.mem_append, List.mem_filter, List.mem_map, decide_eq_true_eq, hmem, Due]
  exact (or_congr and_comm Iff.rfl).trans and_or_left.symm

/-- The labels that can be told are told once, and no others. -/
theorem count_labels (h : code.Laid pool is body) (hdecode : Instruction.decode code.bytes = .ok is) (l : Label) :
    (CodeEvent.labels body).count l = if code.Due is l then 1 else 0 := by
  have hnodup : (CodeEvent.labels body).Nodup := (h.pairwise_labels hdecode).imp Int.ne_of_lt
  rw [hnodup.count]
  simp only [h.mem_labels_iff]

end Laid

end Code

namespace Replay

variable {ε : Type} {refusal : ε} {memo memo' : Memo} {r r' : Recorder}

/-- A chain of one recorder that refuses nothing. -/
def recording (refusal : ε) : Chain Recorder ε := ⟨[], Recorder.sink { refusal }⟩

theorem visit_recorded (place : Option (String × String)) (source : Member) (event : CodeEvent) :
    visit place ((recording refusal).code ⟨source, true⟩ event) (memo, r) =
      (.ok (), (memo, { r with events := r.events.push (.code event) })) := by
  have hcode : (recording refusal).code ⟨source, true⟩ event r =
      (.ok (), { r with events := r.events.push (.code event) }) := by
    have htell := Recorder.tell_apply refusal (.code event) r
    rw [Chain.code_eq]
    cases event.access? source <;> exact htell
  simp only [visit, hcode]

theorem forM_recorded (place : Option (String × String)) (source : Member) (events : List CodeEvent) :
    (events.forM fun event => visit place ((recording refusal).code ⟨source, true⟩ event)) (memo, r) =
      (.ok (), (memo, { r with events := r.events ++ events.map Event.code })) := by
  induction events generalizing r with
  | nil => simp [Run.pure_apply]
  | cons event events ih =>
    refine (Run.bind_ok (visit_recorded place source event)).trans (ih.trans ?_)
    simp

/-- Code that is told to the end leaves the events of its body. -/
theorem code_recorded {pool : Pool} {code : Code} {decl : MethodDecl} {source : Member} (hm : Memo.Sound pool memo)
    (h : Replay.code (recording refusal) pool ⟨source, true⟩ decl code (memo, r) = (.ok (), (memo', r'))) :
    (code.body pool).fault = none ∧ r'.events.toList = r.events.toList ++ (code.body pool).events.map .code := by
  obtain ⟨memo₁, htrace, -⟩ := (code.trace_steady pool).apply hm
  have hresolve : (resolve (code.trace pool) : Replay Recorder ε Trace) (memo, r) =
      (.ok (code.body pool), (memo₁, r)) := by
    simp only [resolve, htrace]
    rfl
  unfold Replay.code at h
  rw [Run.bind_ok hresolve, Run.bind_ok (forM_recorded _ source _)] at h
  cases hfault : (code.body pool).fault with
  | some fault =>
    rw [hfault] at h
    cases h
  | none =>
    rw [hfault] at h
    cases h
    simp

/-- Where the labels and lines of a method stand, if its code is told to the end: the events are laid out by the
instructions, the labels among them rise, and each that can be told is told once. -/
theorem recorded_body_laid {pool : Pool} {code : Code} {decl : MethodDecl} {source : Member}
    (hm : Memo.Sound pool memo)
    (h : Replay.code (recording refusal) pool ⟨source, true⟩ decl code (memo, r) = (.ok (), (memo', r'))) :
    ∃ is body, Instruction.decode code.bytes = .ok is ∧ r'.events.toList = r.events.toList ++ body.map .code ∧
      code.Laid pool is body ∧ (CodeEvent.labels body).Pairwise (· < ·) ∧
      ∀ l, (CodeEvent.labels body).count l = if code.Due is l then 1 else 0 := by
  obtain ⟨hfault, hevents⟩ := code_recorded hm h
  obtain ⟨is, hdecode, hlaid⟩ := Code.laid_body hfault
  exact ⟨is, _, hdecode, hevents, hlaid, hlaid.pairwise_labels hdecode, hlaid.count_labels hdecode⟩

/-- A branch over one instruction, with a handler up to the end and a line inside the branch. -/
def skipping : Code := ⟨0, 0, [167, 0, 4, 0, 177], [⟨0, 5, 3, ""⟩], [⟨0, 7⟩, ⟨2, 9⟩, ⟨0, 8⟩]⟩

def skippingEvents : List CodeEvent :=
  [.start, .tryCatch 0 5 3 "", .label 0, .lineNumber 7 0, .lineNumber 8 0, .jump 167 4, .label 3, .insn 0, .label 4,
    .insn 177, .label 5, .maxs 0 0]

theorem skipping_recorded :
    Replay.code (recording ()) ⟨#[], #[]⟩ ⟨⟨"A", "f"⟩, true⟩ ⟨9, "f", "()V", "", []⟩ skipping ([], {}) =
        (.ok (), ([], { events := ⟨skippingEvents.map .code⟩ })) ∧
      ∃ is body, Instruction.decode skipping.bytes = .ok is ∧ skippingEvents.map Event.code = body.map .code ∧
        skipping.Laid ⟨#[], #[]⟩ is body ∧ (CodeEvent.labels body).Pairwise (· < ·) ∧
        ∀ l, (CodeEvent.labels body).count l = if skipping.Due is l then 1 else 0 := by
  have hcode : Replay.code (recording ()) ⟨#[], #[]⟩ ⟨⟨"A", "f"⟩, true⟩ ⟨9, "f", "()V", "", []⟩ skipping ([], {}) =
      (.ok (), ([], { events := ⟨skippingEvents.map .code⟩ })) := by cbv
  exact ⟨hcode, recorded_body_laid (Memo.sound_nil _) hcode⟩

end Replay

end Linkage
