import Linkage.Proofs.LayoutReading
import Linkage.Proofs.ParseFaults
import Linkage.Proofs.Truncation

/-!
Attribute bodies that are cut short. The body of an attribute announces by its own counts how far it goes. Where it ends
before that, reading the class fails at this attribute: with a truncation of the body if the attribute is a table or a
method's code, but with a reference to slot 0 if all that is missing is an index that is looked up at once. So it is
with the attributes that hold one index, and with the entries of an exception table.
-/
namespace Linkage

/-! The shapes of bodies. -/

/-- A shape that bytes can have: those that hold it whole, and those that end before it does. -/
structure Shape where
  Whole : Bytes → Prop
  Cut : Bytes → Prop

namespace Shape

/-- No bytes, where something holds. -/
def given (P : Prop) : Shape := ⟨fun bs => bs = [] ∧ P, fun _ => False⟩

def done : Shape := given True

/-- So many bytes, and then the shape that they announce. -/
def bytes (n : Nat) (next : Bytes → Shape) : Shape where
  Whole bs := ∃ first rest, bs = first ++ rest ∧ first.length = n ∧ (next first).Whole rest
  Cut bs := bs.length < n ∨ ∃ first rest, bs = first ++ rest ∧ first.length = n ∧ (next first).Cut rest

/-- A number, and then the shape that it announces. -/
def number (width : Nat) (next : Nat → Shape) : Shape := bytes width fun first => next first.toNat

def andThen (f g : Shape) : Shape where
  Whole bs := ∃ first rest, bs = first ++ rest ∧ f.Whole first ∧ g.Whole rest
  Cut bs := f.Cut bs ∨ ∃ first rest, bs = first ++ rest ∧ f.Whole first ∧ g.Cut rest

def times (f : Shape) : Nat → Shape
  | 0 => done
  | n + 1 => f.andThen (times f n)

/-- A count, and then as many items. -/
def table (f : Shape) : Shape := number 2 f.times

def index : Shape := number 2 fun _ => done

def lines : Shape := table (number 2 fun _ => number 2 fun _ => done)

def bootstraps : Shape := table (number 2 fun _ => table index)

/-- The class that an exception table names. -/
def thrown (pool : Pool) : Shape := number 2 fun slot => given (∃ name, pool.className slot = .ok name)

def exceptions (pool : Pool) : Shape := table (thrown pool)

def handler (pool : Pool) : Shape :=
  number 2 fun _ => number 2 fun _ => number 2 fun _ => number 2 fun slot =>
    given (∃ type, pool.optionalClassName slot = .ok type)

/-- An attribute whose name resolves and whose body is as it should be. -/
def entry (pool : Pool) (Sound : String → Bytes → Prop) : Shape :=
  number 2 fun slot => number 4 fun length => bytes length fun body =>
    given (∃ name, pool.utf8 slot = .ok name ∧ Sound name body)

/-- A body holds a whole line table, if it is to hold one. -/
def SoundLines (name : String) (body : Bytes) : Prop :=
  name = "LineNumberTable" → ∃ whole trailing, body = whole ++ trailing ∧ lines.Whole whole

def code (pool : Pool) : Shape :=
  number 2 fun _ => number 2 fun _ => number 4 fun length => bytes length fun _ =>
    (table (handler pool)).andThen (table (entry pool SoundLines))

end Shape

/-- The parts of a class file that have attributes. -/
inductive Part where
  | field
  | method
  | code
  | type

/-- The attributes that are looked into, by the part they stand in, and the shapes of their bodies. -/
inductive Part.Interprets (pool : Pool) : Part → String → Shape → Prop
  | constantValue : Interprets pool .field "ConstantValue" .index
  | fieldSignature : Interprets pool .field "Signature" .index
  | code : Interprets pool .method "Code" (.code pool)
  | exceptions : Interprets pool .method "Exceptions" (.exceptions pool)
  | methodSignature : Interprets pool .method "Signature" .index
  | lines : Interprets pool .code "LineNumberTable" .lines
  | source : Interprets pool .type "SourceFile" .index
  | classSignature : Interprets pool .type "Signature" .index
  | bootstraps : Interprets pool .type "BootstrapMethods" .bootstraps

/-- The body of the attribute ends before what its counts announce, and all of it that is whole is as it should be. -/
def Part.CutShort (pool : Pool) (part : Part) (name : String) (body : Bytes) : Prop :=
  ∃ shape, part.Interprets pool name shape ∧ shape.Cut body

/-- What is missing is an index that is looked up without asking whether it was there. -/
def Part.Overlooked (name : String) (body : Bytes) : Prop :=
  name ∈ ["ConstantValue", "Signature", "SourceFile"] ∨ name = "Exceptions" ∧ 2 ≤ body.length

instance (name : String) (body : Bytes) : Decidable (Part.Overlooked name body) := inferInstanceAs (Decidable (_ ∨ _))

namespace Scan

variable {ε α β : Type} {p : Scan ε α} {f : α → Scan ε β} {c c' : Cursor}

theorem bind_ok {a : α} (h : p c = .ok (a, c')) : (p >>= f) c = f a c' := by
  change (p c >>= fun r => f r.1 r.2) = _
  rw [h]
  rfl

theorem bind_error {e : ε} (h : p c = .error e) : (p >>= f) c = .error e := by
  change (p c >>= fun r => f r.1 r.2) = _
  rw [h]
  rfl

end Scan

namespace Parse

open Scan

variable {α β : Type} {pool : Pool}

/-! Steps that read a shape. -/

/-- The step reads what holds the shape whole, and reports what ends before it as a truncation. -/
structure Follows (p : Parse α) (shape : Shape) : Prop where
  whole {bs : Bytes} : shape.Whole bs → ∃ a, Reads p bs a
  cut {bs : Bytes} (pos : Nat) : shape.Cut bs → ∃ t : Truncation, p ⟨pos, bs, none⟩ = .error ⟨[], .truncated t⟩ ∧
    t.offset + t.available = pos + bs.length ∧ (t.available : Int) < t.need

namespace Follows

variable {p : Parse α} {f : α → Parse β} {shape : Shape}

theorem given {P : Prop} (h : P → ∃ a, Reads p [] a) : Follows p (.given P) where
  whole := by
    rintro _ ⟨rfl, hP⟩
    exact h hP
  cut _ hcut := hcut.elim

theorem pure (a : α) : Follows (Pure.pure a) .done := .given fun _ => ⟨a, reads_pure a⟩

/-- After what is whole, what is cut short is reported with the offset that it has there. -/
theorem cut_after {first rest : Bytes} {a : α} (hp : Reads p first a) (hf : Follows (f a) shape)
    (hcut : shape.Cut rest) (pos : Nat) :
    ∃ t : Truncation, (p >>= f) ⟨pos, first ++ rest, none⟩ = .error ⟨[], .truncated t⟩ ∧
      t.offset + t.available = pos + (first ++ rest).length ∧ (t.available : Int) < t.need := by
  obtain ⟨t, ht, hend, hneed⟩ := hf.cut (pos + first.length) hcut
  refine ⟨t, (bind_ok (hp pos rest)).trans ht, ?_, hneed⟩
  rw [hend, List.length_append, Nat.add_assoc]

theorem andThen {next : Shape} (hp : Follows p shape) (hf : ∀ a, Follows (f a) next) :
    Follows (p >>= f) (shape.andThen next) where
  whole := by
    rintro _ ⟨first, rest, rfl, hfirst, hrest⟩
    obtain ⟨a, ha⟩ := hp.whole hfirst
    obtain ⟨b, hb⟩ := (hf a).whole hrest
    exact ⟨b, ha.bind hb⟩
  cut pos := by
    rintro (hcut | ⟨first, rest, rfl, hfirst, hcut⟩)
    · obtain ⟨t, ht, hof⟩ := hp.cut pos hcut
      exact ⟨t, bind_error ht, hof⟩
    · obtain ⟨a, ha⟩ := hp.whole hfirst
      exact cut_after ha (hf a) hcut pos

theorem map (hp : Follows p shape) (g : α → β) : Follows (do return g (← p)) shape where
  whole h := by
    obtain ⟨a, ha⟩ := hp.whole h
    exact ⟨g a, ha.bind_nil (reads_pure _)⟩
  cut pos h := by
    obtain ⟨t, ht, hof⟩ := hp.cut pos h
    exact ⟨t, bind_error ht, hof⟩

/-- A read, and then the step for the bytes that it took. -/
theorem ofRead {n : Nat} {read : Cursor → α × Cursor} (value : Bytes → α) {next : Bytes → Shape}
    (hread : ∀ c, read c = (value (c.bytes n).1, (c.bytes n).2))
    (hf : ∀ first, Follows (f (value first)) (next first)) :
    Follows ((Scan.ofRead read : Parse α) >>= f) (.bytes n next) where
  whole := by
    rintro _ ⟨first, rest, rfl, hlength, hrest⟩
    obtain ⟨b, hb⟩ := (hf first).whole hrest
    exact ⟨b, (Takes.ofRead hread isTruncation_ofTruncation hlength).reads.bind hb⟩
  cut {bs} pos := by
    rintro (hlt | ⟨first, rest, rfl, hlength, hcut⟩)
    · refine ⟨⟨n, pos, bs.length⟩, bind_error ?_, rfl, Int.ofNat_lt.mpr hlt⟩
      rw [Scan.ofRead, hread, Cursor.bytes_of_lt hlt]
      rfl
    · have hfirst : Reads (Scan.ofRead read : Parse α) first (value first) :=
        (Takes.ofRead hread isTruncation_ofTruncation hlength).reads
      exact cut_after hfirst (hf first) hcut pos

theorem bytes {n : Nat} {f : Bytes → Parse β} {next : Bytes → Shape} (hf : ∀ first, Follows (f first) (next first)) :
    Follows (Scan.bytes n >>= f) (.bytes n next) :=
  ofRead id (fun _ => rfl) hf

theorem u2 {f : Nat → Parse β} {next : Nat → Shape} (hf : ∀ n, Follows (f n) (next n)) :
    Follows (Scan.u2 >>= f) (.number 2 next) :=
  ofRead Bytes.toNat (fun _ => rfl) fun first => hf first.toNat

theorem u4 {f : Nat → Parse β} {next : Nat → Shape} (hf : ∀ n, Follows (f n) (next n)) :
    Follows (Scan.u4 >>= f) (.number 4 next) :=
  ofRead Bytes.toNat (fun _ => rfl) fun first => hf first.toNat

theorem timesFrom {step : Nat → Parse α} (h : ∀ i, Follows (step i) shape) (i n : Nat) :
    Follows (Scan.timesFrom step i n) (shape.times n) := by
  induction n generalizing i with
  | zero => exact pure []
  | succ n ih => exact (h i).andThen fun a => (ih (i + 1)).map (a :: ·)

/-- A count, and then as many steps. -/
theorem table {step : Nat → Parse α} (h : ∀ i, Follows (step i) shape) :
    Follows (do times (← Scan.u2) step) (.table shape) :=
  u2 fun n => timesFrom h 0 n

end Follows

/-! The bodies that are read strictly. -/

/-- Reads one attribute of a table. -/
def entry (pool : Pool) (step : α → String → Bytes → Parse α) (acc : α) (index : Nat) : Parse α := do
  let nameIndex ← u2
  let data ← bytes (← u4)
  let name ← inside (.attributeName index) (ofPool (pool.utf8 nameIndex))
  inside (.attributeBody name) (step acc name data)

theorem go_succ (step : α → String → Bytes → Parse α) (acc : α) (index count : Nat) :
    attributes.go pool step acc index (count + 1) =
      entry pool step acc index >>= fun acc => attributes.go pool step acc (index + 1) count := by
  simp only [attributes.go, entry, bind_assoc]

theorem follows_attributes {step : α → String → Bytes → Parse α} {Sound : String → Bytes → Prop}
    (hstep : ∀ acc name body, Sound name body → ∃ next, Reads (step acc name body) [] next) (start : α) :
    Follows (attributes pool start step) (.table (.entry pool Sound)) := by
  have hentry (acc : α) (index : Nat) : Follows (entry pool step acc index) (.entry pool Sound) := by
    refine .u2 fun slot => .u4 fun length => .bytes fun body => .given ?_
    rintro ⟨name, hname, hsound⟩
    obtain ⟨next, hnext⟩ := hstep acc name body hsound
    exact ⟨next, (reads_inside (reads_ofPool hname) _).bind (reads_inside hnext _)⟩
  have hgo (n : Nat) (acc : α) (index : Nat) :
      Follows (attributes.go pool step acc index n) ((Shape.entry pool Sound).times n) := by
    induction n generalizing acc index with
    | zero => exact .pure acc
    | succ n ih =>
      rw [go_succ]
      exact (hentry acc index).andThen fun acc => ih acc (index + 1)
  exact .u2 fun n => hgo n start 0

theorem follows_index : Follows (u2 : Parse Nat) .index := by
  have h : Follows (u2 >>= Pure.pure : Parse Nat) .index := .u2 fun n => .pure n
  rwa [bind_pure] at h

theorem follows_lines : Follows Parse.lines .lines :=
  .table fun _ => .u2 fun _ => .u2 fun _ => .pure _

theorem follows_bootstraps : Follows bootstraps .bootstraps :=
  .table fun _ => .u2 fun _ => .u2 fun n => (Follows.timesFrom (fun _ => follows_index) 0 n).map _

theorem follows_handler (index : Nat) : Follows (handler pool index) (.handler pool) := by
  refine .u2 fun _ => .u2 fun _ => .u2 fun _ => .u2 fun slot => .given ?_
  rintro ⟨type, htype⟩
  exact ⟨_, (reads_inside (reads_ofPool htype) _).bind (reads_pure _)⟩

theorem reads_lineStep {name : String} {body : Bytes} (h : Shape.SoundLines name body) (acc : List Line) :
    ∃ next, Reads (lineStep acc name body) [] next := by
  unfold lineStep
  split
  · obtain ⟨whole, trailing, rfl, hwhole⟩ := h rfl
    obtain ⟨lines, hlines⟩ := follows_lines.whole hwhole
    exact ⟨_, (reads_ofBytes_append hlines trailing).bind (reads_pure _)⟩
  · exact ⟨acc, reads_pure acc⟩

theorem follows_code : Follows (code pool) (.code pool) := by
  have hcode : code pool = do
      let maxStack ← u2
      let maxLocals ← u2
      let body ← bytes (← u4)
      let handlers ← (do times (← u2) (handler pool))
      let lines ← attributes pool [] lineStep
      return ⟨maxStack, maxLocals, body, handlers, lines⟩ := by
    simp only [bind_assoc]
    rfl
  rw [hcode]
  refine .u2 fun maxStack => .u2 fun maxLocals => .u4 fun length => .bytes fun body => ?_
  refine (Follows.table follows_handler).andThen fun handlers => ?_
  exact (follows_attributes (fun acc _ _ h => reads_lineStep h acc) []).map _

/-- A strict reader of a body that is cut short reports it as a truncation of this body. -/
theorem Follows.ofBytes_error {p : Parse α} {shape : Shape} (hp : Follows p shape) {body : Bytes}
    (hcut : shape.Cut body) (c : Cursor) :
    ∃ t, t.Of body ∧ ofBytes p body c = .error ⟨[], .truncated t⟩ := by
  obtain ⟨t, ht, hend, hneed⟩ := hp.cut 0 hcut
  refine ⟨t, ⟨by simpa using hend, hneed⟩, ?_⟩
  rw [ofBytes, Cursor.ofBytes, ht]

/-! The bodies that are read leniently. -/

theorem indexIn_of_cut {body : Bytes} (h : Shape.index.Cut body) : indexIn body = 0 := by
  obtain hlt | ⟨first, rest, -, -, hcut⟩ := h
  · rw [indexIn, Cursor.ofBytes, Cursor.u2, Cursor.number, Cursor.bytes_of_lt hlt]
    rfl
  · exact hcut.elim

theorem ofPool_error {fault : PoolFault} {result : Except PoolFault α} (h : result = .error fault) (c : Cursor) :
    ofPool result c = .error ⟨[], .pool fault⟩ := by
  rw [h]
  rfl

theorem utf8_zero (pool : Pool) : pool.utf8 0 = .error (.outOfRange 0) := rfl

theorem className_zero (pool : Pool) : pool.className 0 = .error (.outOfRange 0) := rfl

theorem loadable_zero (pool : Pool) : (pool.loadable 0 []).1 = .error (.outOfRange 0) := by
  rw [Pool.loadable, Pool.loadableWithin]
  rfl

theorem exceptions_go_succ (n : Nat) (c : Cursor) :
    exceptions.go pool (n + 1) c =
      (do return (← ofPool (pool.className c.u2.1)) :: (← exceptions.go pool n)) c.u2.2 := rfl

/-- The missing entry of an exception table is looked up as slot 0. -/
theorem exceptions_go_error {n : Nat} {bs : Bytes} (h : ((Shape.thrown pool).times n).Cut bs) (pos : Nat) :
    exceptions.go pool n ⟨pos, bs, none⟩ = .error ⟨[], .pool (.outOfRange 0)⟩ := by
  induction n generalizing bs pos with
  | zero => exact h.elim
  | succ n ih =>
    rw [exceptions_go_succ, Cursor.u2, Cursor.number]
    obtain (hlt | ⟨_, _, -, -, hcut⟩) | ⟨_, rest, rfl, ⟨slot, _, rfl, hslot, rfl, name, hname⟩, hcut⟩ := h
    · rw [Cursor.bytes_of_lt hlt]
      exact bind_error (ofPool_error (className_zero pool) _)
    · exact hcut.elim
    · have hle : 2 ≤ (slot ++ [] ++ rest).length := by simp [hslot]
      have htake : (slot ++ [] ++ rest).take 2 = slot := by simp [← hslot]
      have hdrop : (slot ++ [] ++ rest).drop 2 = rest := by simp [← hslot]
      rw [Cursor.bytes_of_le hle, htake, hdrop]
      exact (bind_ok (reads_ofPool hname (pos + 2) rest)).trans (bind_error (ih hcut (pos + 2)))

theorem exceptions_error {body : Bytes} (hcut : (Shape.exceptions pool).Cut body) (hle : 2 ≤ body.length) (c : Cursor) :
    exceptions pool body c = .error ⟨[], .pool (.outOfRange 0)⟩ := by
  obtain hlt | ⟨count, rest, rfl, hcount, hcut⟩ := hcut
  · omega
  · have hread : Reads (u2 : Parse Nat) count count.toNat :=
      (Takes.ofRead (fun _ => rfl) isTruncation_ofTruncation hcount).reads
    have hgo := exceptions_go_error hcut (0 + count.length)
    rw [exceptions, ofBytes, Cursor.ofBytes, bind_ok (hread 0 rest), hgo]

theorem exceptions_truncated (pool : Pool) {body : Bytes} (hlt : body.length < 2) (c : Cursor) :
    ∃ t, t.Of body ∧ exceptions pool body c = .error ⟨[], .truncated t⟩ := by
  obtain ⟨t, ht, hend, hneed⟩ := follows_index.cut 0 (.inl hlt)
  refine ⟨t, ⟨by simpa using hend, hneed⟩, ?_⟩
  rw [exceptions, ofBytes, Cursor.ofBytes, bind_error ht]

/-! What becomes of a body that is cut short. -/

/-- The fault that a body that is cut short is reported as. -/
def Blames (name : String) (body : Bytes) (fault : ParseFault) : Prop :=
  if Part.Overlooked name body then fault = .pool (.outOfRange 0) else ∃ t, t.Of body ∧ fault = .truncated t

/-- The step of an attribute fails as its body is blamed. -/
def FailsAs (name : String) (body : Bytes) (step : Parse α) : Prop :=
  ∀ c, ∃ fault, Blames name body fault ∧ step c = .error ⟨[], fault⟩

theorem FailsAs.overlooked {name : String} {body : Bytes} {step : Parse α} (h : Part.Overlooked name body)
    (hstep : ∀ c, step c = .error ⟨[], .pool (.outOfRange 0)⟩) : FailsAs name body step := by
  intro c
  refine ⟨_, ?_, hstep c⟩
  rw [Blames, if_pos h]

theorem FailsAs.truncated {name : String} {body : Bytes} {step : Parse α} (h : ¬ Part.Overlooked name body)
    (hstep : ∀ c, ∃ t, t.Of body ∧ step c = .error ⟨[], .truncated t⟩) : FailsAs name body step := by
  intro c
  obtain ⟨t, hof, ht⟩ := hstep c
  refine ⟨.truncated t, ?_, ht⟩
  rw [Blames, if_neg h]
  exact ⟨t, hof, rfl⟩

theorem failsAs_index (look : Nat → Except PoolFault α) {name : String} {body : Bytes} (hcut : Shape.index.Cut body)
    (hname : name ∈ ["ConstantValue", "Signature", "SourceFile"]) (hlook : look 0 = .error (.outOfRange 0))
    (f : α → Parse β) :
    FailsAs name body (ofPool (look (indexIn body)) >>= f) := by
  have hzero : look (indexIn body) = .error (.outOfRange 0) := by rw [indexIn_of_cut hcut, hlook]
  exact .overlooked (.inl hname) fun c => bind_error (ofPool_error hzero c)

theorem failsAs_strict {name : String} {body : Bytes} {p : Parse α} {shape : Shape} (hp : Follows p shape)
    (hcut : shape.Cut body) (hname : ¬ Part.Overlooked name body) (f : α → Parse β) :
    FailsAs name body (ofBytes p body >>= f) := by
  apply FailsAs.truncated hname
  intro c
  obtain ⟨t, hof, ht⟩ := hp.ofBytes_error hcut c
  exact ⟨t, hof, bind_error ht⟩

theorem failsAs_exceptions {body : Bytes} (hcut : (Shape.exceptions pool).Cut body) (f : List String → Parse β) :
    FailsAs "Exceptions" body (exceptions pool body >>= f) := by
  by_cases hle : 2 ≤ body.length
  · exact .overlooked (.inr ⟨rfl, hle⟩) fun c => bind_error (exceptions_error hcut hle c)
  · apply FailsAs.truncated (by simp [Part.Overlooked, hle])
    intro c
    obtain ⟨t, hof, ht⟩ := exceptions_truncated pool (Nat.lt_of_not_le hle) c
    exact ⟨t, hof, bind_error ht⟩

variable {name : String} {body : Bytes}

theorem fieldStep_failsAs (h : Part.CutShort pool .field name body) (acc : Field) :
    FailsAs name body (fieldStep pool acc name body) := by
  obtain ⟨shape, hshape, hcut⟩ := h
  cases hshape with
  | constantValue => exact failsAs_index (fun index => (pool.loadable index []).1) hcut (by decide) (loadable_zero pool) _
  | fieldSignature => exact failsAs_index pool.utf8 hcut (by decide) (utf8_zero pool) _

theorem methodStep_failsAs (h : Part.CutShort pool .method name body) (acc : Method) :
    FailsAs name body (methodStep pool acc name body) := by
  obtain ⟨shape, hshape, hcut⟩ := h
  cases hshape with
  | code => exact failsAs_strict follows_code hcut (by simp [Part.Overlooked]) _
  | exceptions => exact failsAs_exceptions hcut _
  | methodSignature => exact failsAs_index pool.utf8 hcut (by decide) (utf8_zero pool) _

theorem lineStep_failsAs (h : Part.CutShort pool .code name body) (acc : List Line) :
    FailsAs name body (lineStep acc name body) := by
  obtain ⟨shape, hshape, hcut⟩ := h
  cases hshape with
  | lines => exact failsAs_strict follows_lines hcut (by simp [Part.Overlooked]) _

theorem classStep_failsAs {acc : ClassFile} (h : Part.CutShort acc.pool .type name body) :
    FailsAs name body (classStep acc name body) := by
  obtain ⟨shape, hshape, hcut⟩ := h
  cases hshape with
  | source => exact failsAs_index acc.pool.utf8 hcut (by decide) (utf8_zero acc.pool) _
  | classSignature => exact failsAs_index acc.pool.utf8 hcut (by decide) (utf8_zero acc.pool) _
  | bootstraps => exact failsAs_strict follows_bootstraps hcut (by simp [Part.Overlooked]) _

/-! The attribute that reading comes to. -/

/-- A step that starts at one cursor comes to another step at another cursor, inside these places: all that is read
before is read without an error. -/
inductive Reaches (q : Parse β) (d : Cursor) : {α : Type} → Parse α → Cursor → List Place → Prop
  | here : Reaches q d q d []
  | first {α γ : Type} {p : Parse α} {f : α → Parse γ} {c : Cursor} {places : List Place} :
    Reaches q d p c places → Reaches q d (p >>= f) c places
  | next {α γ : Type} {p : Parse α} {f : α → Parse γ} {a : α} {c c' : Cursor} {places : List Place} :
    p c = .ok (a, c') → Reaches q d (f a) c' places → Reaches q d (p >>= f) c places
  | inside {α : Type} {p : Parse α} {c : Cursor} {place : Place} {places : List Place} :
    Reaches q d p c places → Reaches q d (inside place p) c (place :: places)
  | ofBytes {α : Type} {p : Parse α} {data : Bytes} {c : Cursor} {places : List Place} :
    Reaches q d p (Cursor.ofBytes data) places → Reaches q d (ofBytes p data) c places

/-- What the step fails with that is come to is what reading fails with, inside the places around it. -/
theorem Reaches.error {q : Parse β} {d c : Cursor} {p : Parse α} {places : List Place} (h : Reaches q d p c places)
    {e : ParseError} (hq : q d = .error e) : p c = .error ⟨places ++ e.places, e.fault⟩ := by
  induction h with
  | here => exact hq
  | first _ ih => exact bind_error ih
  | next hp _ ih => exact (bind_ok hp).trans ih
  | inside _ ih =>
    rw [Parse.inside, Scan.mapError, ih]
    rfl
  | ofBytes _ ih => rw [Parse.ofBytes, ih]

/-- Reading the class file comes to an attribute of this name and body in a part of this kind. -/
inductive Meets (data : Bytes) : Pool → Part → String → Bytes → List Place → Prop
  | field {pool : Pool} {acc : Field} {name : String} {body : Bytes} {d : Cursor} {places : List Place} :
    Reaches (fieldStep pool acc name body) d classFile (.ofBytes data) places → Meets data pool .field name body places
  | method {pool : Pool} {acc : Method} {name : String} {body : Bytes} {d : Cursor} {places : List Place} :
    Reaches (methodStep pool acc name body) d classFile (.ofBytes data) places →
    Meets data pool .method name body places
  | code {pool : Pool} {acc : List Line} {name : String} {body : Bytes} {d : Cursor} {places : List Place} :
    Reaches (lineStep acc name body) d classFile (.ofBytes data) places → Meets data pool .code name body places
  | type {acc : ClassFile} {name : String} {body : Bytes} {d : Cursor} {places : List Place} :
    Reaches (classStep acc name body) d classFile (.ofBytes data) places → Meets data acc.pool .type name body places

theorem Reaches.parse_error {q : Parse α} {d : Cursor} {data : Bytes} {places : List Place}
    (h : Reaches q d classFile (.ofBytes data) places) (hq : FailsAs name body q) :
    ∃ fault, Blames name body fault ∧ ClassFile.parse data = .error ⟨places, fault⟩ := by
  obtain ⟨fault, hfault, he⟩ := hq d
  refine ⟨fault, hfault, ?_⟩
  rw [ClassFile.parse, h.error he, List.append_nil]
  rfl

theorem Meets.parse_error {data : Bytes} {part : Part} {places : List Place}
    (h : Meets data pool part name body places) (hcut : part.CutShort pool name body) :
    ∃ fault, Blames name body fault ∧ ClassFile.parse data = .error ⟨places, fault⟩ := by
  cases h with
  | field h => exact h.parse_error (fieldStep_failsAs hcut _)
  | method h => exact h.parse_error (methodStep_failsAs hcut _)
  | code h => exact h.parse_error (lineStep_failsAs hcut _)
  | type h => exact h.parse_error (classStep_failsAs hcut)

end Parse

namespace ClassFile

open Parse

/-- A class `A` with nothing in it, whose signature is to be read next. -/
def unsigned : ClassFile where
  header := ⟨52, 33, "A", "", "", []⟩
  source := ""
  fields := []
  methods := []
  attributes := []
  pool := ⟨#[none, some (.utf8 "A"), some (.type 1), some (.utf8 "Signature")], #[]⟩

/-- The class file of `unsigned`, with a signature of no bytes. -/
def unsignedBytes : Bytes :=
  [202, 254, 186, 190, 0, 0, 0, 52, 0, 4, 1, 0, 1, 65, 7, 0, 1, 1, 0, 9, 83, 105, 103, 110, 97, 116, 117, 114, 101, 0, 33,
    0, 2, 0, 0, 0, 0, 0, 0, 0, 0, 0, 1, 0, 3, 0, 0, 0, 0]

theorem meets_unsigned : Meets unsignedBytes unsigned.pool .type "Signature" [] [.attributeBody "Signature"] := by
  have h : Reaches (classStep unsigned "Signature" []) ⟨49, [], none⟩ classFile (.ofBytes unsignedBytes)
      [.attributeBody "Signature"] := by
    unfold classFile
    refine .next (by cbv) ?_
    rw [if_neg (by decide)]
    iterate 14 refine .next (by cbv) ?_
    unfold classAttributes Parse.attributes
    refine .next (by cbv) ?_
    unfold Parse.attributes.go
    iterate 4 refine .next (by cbv) ?_
    exact .first (.inside .here)
  exact .type h

theorem cutShort_unsigned : Part.type.CutShort unsigned.pool "Signature" [] :=
  ⟨.index, .classSignature, .inl (by decide)⟩

/-- Code of ten bytes that breaks off after four. -/
def brokenBody : Bytes := [0, 1, 0, 0, 0, 0, 0, 10, 184, 0, 8, 184]

/-- The class file of `caller` with this code. -/
def brokenBytes : Bytes := callerBytes.take 100 ++ [0, 0, 0, 12] ++ brokenBody ++ [0, 0]

theorem meets_broken :
    Meets brokenBytes caller.pool .method "Code" brokenBody [.method "f" "()V", .attributeBody "Code"] := by
  have h : Reaches (methodStep caller.pool ⟨⟨9, "f", "()V", "", []⟩, none⟩ "Code" brokenBody) ⟨116, [0, 0], none⟩
      classFile (.ofBytes brokenBytes) [.method "f" "()V", .attributeBody "Code"] := by
    unfold classFile
    refine .next (by cbv) ?_
    rw [if_neg (by decide)]
    iterate 13 refine .next (by cbv) ?_
    refine .first (.first ?_)
    unfold method
    iterate 5 refine .next (by cbv) ?_
    unfold Parse.attributes
    refine .inside (.next (by cbv) ?_)
    unfold Parse.attributes.go
    iterate 4 refine .next (by cbv) ?_
    exact .first (.inside .here)
  exact .method h

theorem cutShort_broken : Part.method.CutShort caller.pool "Code" brokenBody := by
  refine ⟨.code caller.pool, .code, .inr ⟨[0, 1], _, rfl, rfl, .inr ⟨[0, 0], _, rfl, rfl, ?_⟩⟩⟩
  exact .inr ⟨[0, 0, 0, 10], [184, 0, 8, 184], rfl, rfl, .inl (by decide)⟩

/-- An attribute body that is cut short is reported where it stands. It is a truncation of the body if what is missing
is not overlooked, and otherwise a reference to slot 0. -/
theorem parse_cut_attribute {data body : Bytes} {pool : Pool} {part : Part} {name : String} {places : List Place}
    (hmeets : Meets data pool part name body places) (hcut : part.CutShort pool name body) :
    (¬ Part.Overlooked name body → ∃ t, t.Of body ∧ parse data = .error ⟨places, .truncated t⟩) ∧
      (Part.Overlooked name body → parse data = .error ⟨places, .pool (.outOfRange 0)⟩) := by
  obtain ⟨fault, hfault, hparse⟩ := hmeets.parse_error hcut
  constructor
  · intro hname
    rw [Blames, if_neg hname] at hfault
    obtain ⟨t, hof, rfl⟩ := hfault
    exact ⟨t, hof, hparse⟩
  · intro hname
    rw [Blames, if_pos hname] at hfault
    rw [hparse, hfault]

/-- A signature without its index is a reference to slot 0; code that breaks off is a truncation. -/
theorem cut_attributes_reported :
    (Meets unsignedBytes unsigned.pool .type "Signature" [] [.attributeBody "Signature"] ∧
      Part.type.CutShort unsigned.pool "Signature" [] ∧
      parse unsignedBytes = .error ⟨[.attributeBody "Signature"], .pool (.outOfRange 0)⟩) ∧
    (Meets brokenBytes caller.pool .method "Code" brokenBody [.method "f" "()V", .attributeBody "Code"] ∧
      Part.method.CutShort caller.pool "Code" brokenBody ∧
      ∃ t, t.Of brokenBody ∧ parse brokenBytes = .error ⟨[.method "f" "()V", .attributeBody "Code"], .truncated t⟩) :=
  ⟨⟨meets_unsigned, cutShort_unsigned, (parse_cut_attribute meets_unsigned cutShort_unsigned).2 (by decide)⟩,
    ⟨meets_broken, cutShort_broken, (parse_cut_attribute meets_broken cutShort_broken).1 (by decide)⟩⟩

end ClassFile

/-! Class files without a missing byte. -/

namespace Parse

open Scan

/-- Goes over a table of attributes, whatever they hold. -/
def skimAttributes : Parse Unit := do
  let _ ← times (← u2) fun _ => do
    let _ ← u2
    bytes (← u4)

def skimMembers : Parse Unit := do
  let _ ← times (← u2) fun _ => do
    let _ ← bytes 6
    skimAttributes

/-- Goes over a class file up to its end, whatever its attributes hold and its slots refer to. -/
def skim : Parse Unit := do
  let _ ← bytes 8
  let _ ← mapError ParseError.ofPool Pool.read
  let _ ← bytes 6
  let _ ← times (← u2) fun _ => u2
  skimMembers
  skimMembers
  skimAttributes

end Parse

namespace ClassFile

open Parse

/-- A class file from which no byte is missing can have an attribute body that is cut short and not be reported as
truncated. -/
theorem cut_attribute_not_truncation :
    ¬ ∀ data pool part name body places, (∃ last, skim (.ofBytes data) = .ok ((), last)) →
      Meets data pool part name body places → part.CutShort pool name body →
      ∃ places t, parse data = .error ⟨places, .truncated t⟩ := by
  intro h
  obtain ⟨places, t, ht⟩ := h unsignedBytes _ _ _ _ _ ⟨_, by cbv⟩ meets_unsigned cutShort_unsigned
  have hparse : parse unsignedBytes = .error ⟨[.attributeBody "Signature"], .pool (.outOfRange 0)⟩ := by cbv
  rw [hparse] at ht
  cases ht

end ClassFile

end Linkage
