import Linkage.Jvm.Assembler
import Linkage.Jvm.Parse
import Linkage.Proofs.PoolReading

/-! The parts of a class file are read as the assembler lays them out, for whatever pool holds their texts. -/
namespace Linkage

/-- The number fits in two bytes without a sign. -/
def IsU2 (n : Int) : Prop := 0 ≤ n ∧ n < 65536

instance (n : Int) : Decidable (IsU2 n) := inferInstanceAs (Decidable (_ ∧ _))

theorem IsU2.ofInt_eq {n : Int} (h : IsU2 n) : Bytes.ofInt 2 n = u2Bytes n.toNat := by
  have hn : ((n.toNat : Nat) : Int) = n := Int.toNat_of_nonneg h.1
  rw [u2Bytes, ← Bytes.ofInt_natCast (by have := h.2; omega), hn]

theorem IsU2.natCast_toNat {n : Int} (h : IsU2 n) : (n.toNat : Int) = n := Int.toNat_of_nonneg h.1

theorem IsU2.toNat_lt {n : Int} (h : IsU2 n) : n.toNat < 65536 := by
  have := h.2
  omega

theorem Scan.reads_ofInt {ε : Type} [OfTruncation ε] {n : Int} (h : IsU2 n) :
    Reads (u2 : Scan ε Nat) (Bytes.ofInt 2 n) n.toNat := by
  rw [h.ofInt_eq]
  exact reads_u2 h.toNat_lt

theorem Assembler.length_table {ι : Type} {items : List ι} {encode : ι → Bytes} {width : Nat}
    (h : ∀ item ∈ items, (encode item).length = width) : (table items encode).length = 2 + items.length * width := by
  have hsum : (items.map fun item => (encode item).length) = items.map fun _ => width := List.map_congr_left h
  rw [table, List.length_append, List.length_flatMap, hsum]
  simp [u2Bytes]

namespace Parse

open Scan Assembler

variable {α : Type} {pool : Pool}

theorem reads_ofPool {result : Except PoolFault α} {a : α} (h : result = .ok a) : Reads (ofPool result) [] a := by
  rw [h]
  exact reads_pure a

theorem reads_inside {p : Parse α} {bs : Bytes} {a : α} (h : Reads p bs a) (place : Place) :
    Reads (inside place p) bs a := h.mapError _

/-- What a reader leaves of other bytes is ignored. -/
theorem reads_ofBytes_append {p : Parse α} {data : Bytes} {a : α} (h : Reads p data a) (trailing : Bytes) :
    Reads (ofBytes p (data ++ trailing)) [] a := by
  intro pos rest
  rw [ofBytes, Cursor.ofBytes, h]
  rfl

theorem reads_ofBytes {p : Parse α} {data : Bytes} {a : α} (h : Reads p data a) : Reads (ofBytes p data) [] a := by
  simpa using reads_ofBytes_append h []

theorem reads_go_cons {step : α → String → Bytes → Parse α} {acc next last : α} {slot index count : Nat} {name : String}
    {body rest : Bytes} (hslot : slot < 65536) (hbody : body.length < 2 ^ 32) (hname : pool.utf8 slot = .ok name)
    (hstep : Reads (step acc name body) [] next)
    (hrest : Reads (attributes.go pool step next (index + 1) count) rest last) :
    Reads (attributes.go pool step acc index (count + 1)) (encodeAttribute slot body ++ rest) last := by
  rw [attributes.go, encodeAttribute, List.append_assoc, List.append_assoc]
  refine (reads_u2 hslot).bind ((reads_u4 hbody).bind ((reads_bytes body).bind ?_))
  exact (reads_inside (reads_ofPool hname) _).bind ((reads_inside hstep _).bind hrest)

/-- No attributes. -/
theorem reads_attributes_nil (start : α) (step : α → String → Bytes → Parse α) :
    Reads (attributes pool start step) (u2Bytes 0) start :=
  (reads_u2 (by decide)).bind_nil (reads_pure start)

/-- One attribute. -/
theorem reads_attributes_single {step : α → String → Bytes → Parse α} {start last : α} {slot : Nat} {name : String}
    {body : Bytes} (hslot : slot < 65536) (hbody : body.length < 2 ^ 32) (hname : pool.utf8 slot = .ok name)
    (hstep : Reads (step start name body) [] last) :
    Reads (attributes pool start step) (u2Bytes 1 ++ encodeAttribute slot body) last := by
  refine (reads_u2 (by decide)).bind ?_
  rw [← List.append_nil (encodeAttribute slot body)]
  exact reads_go_cons hslot hbody hname hstep (reads_pure last)

/-- A table of items. -/
theorem reads_table {ι : Type} {step : Nat → Parse α} {items : List ι} {encode : ι → Bytes} {values : List α}
    (hcount : items.length < 65536)
    (h : List.Forall₂ (fun item a => ∀ i, Reads (step i) (encode item) a) items values) :
    Reads (do times (← u2) step) (table items encode) values :=
  (reads_u2 hcount).bind (reads_times h)

/-- What an attribute adds to a field. -/
def fieldStep (pool : Pool) (acc : Field) (kind : String) (data : Bytes) : Parse Field :=
  match kind with
  | "ConstantValue" => return { acc with value := ← constantValue pool (indexIn data) }
  | "Signature" => return { acc with signature := ← ofPool (pool.utf8 (indexIn data)) }
  | _ => return acc

/-- A field is read as its attributes say. -/
theorem reads_field_attributes {access nameSlot descriptorSlot : Nat} {name descriptor : String} {tail : Bytes}
    {f : Field} (haccess : access < 65536) (hns : nameSlot < 65536) (hds : descriptorSlot < 65536)
    (hn : pool.utf8 nameSlot = .ok name) (hd : pool.utf8 descriptorSlot = .ok descriptor)
    (htail : Reads (attributes pool ⟨access, name, descriptor, "", .null⟩ (fieldStep pool)) tail f) (index : Nat) :
    Reads (field pool index) (u2Bytes access ++ u2Bytes nameSlot ++ u2Bytes descriptorSlot ++ tail) f := by
  rw [List.append_assoc, List.append_assoc]
  refine (reads_u2 haccess).bind ((reads_u2 hns).bind ((reads_u2 hds).bind ?_))
  refine (reads_inside (reads_ofPool hn) _).bind ((reads_inside (reads_ofPool hd) _).bind ?_)
  exact reads_inside htail _

theorem reads_field {access : Int} {nameSlot descriptorSlot : Nat} {name descriptor : String} (haccess : IsU2 access)
    (hns : nameSlot < 65536) (hds : descriptorSlot < 65536) (hn : pool.utf8 nameSlot = .ok name)
    (hd : pool.utf8 descriptorSlot = .ok descriptor) (index : Nat) :
    Reads (field pool index) (Bytes.ofInt 2 access ++ u2Bytes nameSlot ++ u2Bytes descriptorSlot ++ u2Bytes 0)
      ⟨access, name, descriptor, "", .null⟩ := by
  rw [haccess.ofInt_eq]
  refine reads_field_attributes haccess.toNat_lt hns hds hn hd ?_ index
  rw [haccess.natCast_toNat]
  exact reads_attributes_nil _ _

theorem reads_handler_u2 {start stop target slot : Nat} {type : String} (hstart : start < 65536) (hstop : stop < 65536)
    (htarget : target < 65536) (hslot : slot < 65536) (htype : pool.optionalClassName slot = .ok type) (index : Nat) :
    Reads (handler pool index) (u2Bytes start ++ u2Bytes stop ++ u2Bytes target ++ u2Bytes slot)
      ⟨start, stop, target, type⟩ := by
  rw [List.append_assoc, List.append_assoc]
  refine (reads_u2 hstart).bind ((reads_u2 hstop).bind ((reads_u2 htarget).bind ?_))
  refine (reads_u2 hslot).bind_nil ?_
  exact (reads_inside (reads_ofPool htype) _).bind (reads_pure _)

theorem reads_handler {start stop target : Int} {slot : Nat} {type : String} (hstart : IsU2 start) (hstop : IsU2 stop)
    (htarget : IsU2 target) (hslot : slot < 65536) (htype : pool.optionalClassName slot = .ok type) (index : Nat) :
    Reads (handler pool index) (Bytes.ofInt 2 start ++ Bytes.ofInt 2 stop ++ Bytes.ofInt 2 target ++ u2Bytes slot)
      ⟨start.toNat, stop.toNat, target.toNat, type⟩ := by
  rw [hstart.ofInt_eq, hstop.ofInt_eq, htarget.ofInt_eq]
  exact reads_handler_u2 hstart.toNat_lt hstop.toNat_lt htarget.toNat_lt hslot htype index

/-- A table of lines, whatever way their numbers are laid out. -/
theorem reads_lines_of {ι : Type} {items : List ι} {start number : ι → Bytes} (line : ι → Line)
    (hcount : items.length < 65536)
    (h : ∀ l ∈ items, Reads (u2 : Parse Nat) (start l) (line l).start ∧ Reads (u2 : Parse Nat) (number l) (line l).line) :
    Reads Parse.lines (table items fun l => start l ++ number l) (items.map line) := by
  refine reads_table hcount ?_
  rw [List.forall₂_map_right_iff, List.forall₂_same]
  exact fun l hl i => (h l hl).1.bind ((h l hl).2.bind_nil (reads_pure _))

theorem reads_lines {lines : List (Nat × Int)} (hcount : lines.length < 65536)
    (hlines : ∀ l ∈ lines, l.1 < 65536 ∧ IsU2 l.2) :
    Reads Parse.lines (table lines fun (start, number) => u2Bytes start ++ Bytes.ofInt 2 number)
      (lines.map fun (start, number) => ⟨start, number.toNat⟩) :=
  reads_lines_of _ hcount fun l hl => ⟨reads_u2 (hlines l hl).1, reads_ofInt (hlines l hl).2⟩

/-- The attributes of a body: a table of its lines, if it has any. -/
def LineAttributes (pool : Pool) (lines : List (Nat × Int)) (bs : Bytes) : Prop :=
  (lines = [] ∧ bs = u2Bytes 0) ∨
    ∃ slot, slot < 65536 ∧ pool.utf8 slot = .ok "LineNumberTable" ∧
      bs = u2Bytes 1 ++ encodeAttribute slot
        (table lines fun (start, number) => u2Bytes start ++ Bytes.ofInt 2 number)

/-- What an attribute adds to the lines of a body. -/
def lineStep (acc : List Line) (kind : String) (data : Bytes) : Parse (List Line) :=
  match kind with
  | "LineNumberTable" => return acc ++ (← ofBytes Parse.lines data)
  | _ => return acc

/-- A body is read with the lines that its attributes give. -/
theorem reads_code_attributes {ι : Type} {maxStack maxLocals : Nat} {body tail : Bytes} {items : List ι}
    {encode : ι → Bytes} {handlers : List Handler} {lines : List Line} (hstack : maxStack < 65536)
    (hlocals : maxLocals < 65536) (hbody : body.length < 2 ^ 32) (hcount : items.length < 65536)
    (hhandlers : List.Forall₂ (fun item h => ∀ i, Reads (handler pool i) (encode item) h) items handlers)
    (htail : Reads (attributes pool [] lineStep) tail lines) :
    Reads (code pool)
      (u2Bytes maxStack ++ u2Bytes maxLocals ++ u4Bytes body.length ++ body ++ table items encode ++ tail)
      ⟨maxStack, maxLocals, body, handlers, lines⟩ := by
  simp only [table, List.append_assoc]
  refine (reads_u2 hstack).bind ((reads_u2 hlocals).bind ((reads_u4 hbody).bind ((reads_bytes body).bind ?_)))
  exact (reads_u2 hcount).bind ((reads_times hhandlers).bind (htail.bind_nil (reads_pure _)))

theorem reads_code {maxStack maxLocals : Int} {body tail : Bytes} {drafts : List (Int × Int × Int × Nat)}
    {handlers : List Handler} {lines : List (Nat × Int)} (hstack : IsU2 maxStack) (hlocals : IsU2 maxLocals)
    (hbody : body.length < 2 ^ 32) (hhandlers : drafts.length < 65536)
    (hdrafts : List.Forall₂ (fun (d : Int × Int × Int × Nat) h => ∀ i, Reads (handler pool i)
      (Bytes.ofInt 2 d.1 ++ Bytes.ofInt 2 d.2.1 ++ Bytes.ofInt 2 d.2.2.1 ++ u2Bytes d.2.2.2) h) drafts handlers)
    (hcount : lines.length < 65536) (hlines : ∀ l ∈ lines, l.1 < 65536 ∧ IsU2 l.2)
    (htail : LineAttributes pool lines tail) :
    Reads (code pool)
      (Bytes.ofInt 2 maxStack ++ Bytes.ofInt 2 maxLocals ++ u4Bytes body.length ++ body ++
        table drafts (fun (start, stop, target, slot) =>
          Bytes.ofInt 2 start ++ Bytes.ofInt 2 stop ++ Bytes.ofInt 2 target ++ u2Bytes slot) ++ tail)
      ⟨maxStack.toNat, maxLocals.toNat, body, handlers, lines.map fun (start, number) => ⟨start, number.toNat⟩⟩ := by
  rw [hstack.ofInt_eq, hlocals.ofInt_eq]
  refine reads_code_attributes hstack.toNat_lt hlocals.toNat_lt hbody hhandlers hdrafts ?_
  obtain ⟨rfl, rfl⟩ | ⟨slot, hslot, hname, rfl⟩ := htail
  · exact reads_attributes_nil _ _
  · refine reads_attributes_single hslot ?_ hname ?_
    · rw [length_table fun item _ => show _ = 4 by simp [u2Bytes]]
      omega
    · exact (reads_ofBytes (reads_lines hcount hlines)).bind (reads_pure _)

/-- The attributes of a method: its body, if it has one. -/
def CodeAttributes (pool : Pool) (code : Option Code) (bs : Bytes) : Prop :=
  (code = none ∧ bs = u2Bytes 0) ∨
    ∃ c slot body, code = some c ∧ slot < 65536 ∧ pool.utf8 slot = .ok "Code" ∧ body.length < 2 ^ 32 ∧
      Reads (Parse.code pool) body c ∧ bs = u2Bytes 1 ++ encodeAttribute slot body

/-- What an attribute adds to a method. -/
def methodStep (pool : Pool) (acc : Method) (kind : String) (data : Bytes) : Parse Method :=
  match kind with
  | "Code" => return { acc with code := some (← ofBytes (code pool) data) }
  | "Exceptions" => do
    let thrown ← exceptions pool data
    return { acc with decl.exceptions := acc.decl.exceptions ++ thrown }
  | "Signature" => do
    let signature ← ofPool (pool.utf8 (indexIn data))
    return { acc with decl.signature := signature }
  | _ => return acc

/-- A method is read as its attributes say. -/
theorem reads_method_attributes {access nameSlot descriptorSlot : Nat} {name descriptor : String} {tail : Bytes}
    {m : Method} (haccess : access < 65536) (hns : nameSlot < 65536) (hds : descriptorSlot < 65536)
    (hn : pool.utf8 nameSlot = .ok name) (hd : pool.utf8 descriptorSlot = .ok descriptor)
    (htail : Reads (attributes pool ⟨⟨access, name, descriptor, "", []⟩, none⟩ (methodStep pool)) tail m)
    (index : Nat) :
    Reads (method pool index) (u2Bytes access ++ u2Bytes nameSlot ++ u2Bytes descriptorSlot ++ tail) m := by
  rw [List.append_assoc, List.append_assoc]
  refine (reads_u2 haccess).bind ((reads_u2 hns).bind ((reads_u2 hds).bind ?_))
  refine (reads_inside (reads_ofPool hn) _).bind ((reads_inside (reads_ofPool hd) _).bind ?_)
  exact reads_inside htail _

theorem reads_method {access : Int} {nameSlot descriptorSlot : Nat} {name descriptor : String} {code : Option Code}
    {tail : Bytes} (haccess : IsU2 access) (hns : nameSlot < 65536) (hds : descriptorSlot < 65536)
    (hn : pool.utf8 nameSlot = .ok name) (hd : pool.utf8 descriptorSlot = .ok descriptor)
    (htail : CodeAttributes pool code tail) (index : Nat) :
    Reads (method pool index) (Bytes.ofInt 2 access ++ u2Bytes nameSlot ++ u2Bytes descriptorSlot ++ tail)
      ⟨⟨access, name, descriptor, "", []⟩, code⟩ := by
  rw [haccess.ofInt_eq]
  refine reads_method_attributes haccess.toNat_lt hns hds hn hd ?_ index
  rw [haccess.natCast_toNat]
  obtain ⟨rfl, rfl⟩ | ⟨c, slot, body, rfl, hslot, hname, hbody, hcode, rfl⟩ := htail
  · exact reads_attributes_nil _ _
  · exact reads_attributes_single hslot hbody hname ((reads_ofBytes hcode).bind (reads_pure _))

/-- A table of bootstrap methods, whatever way their slots are laid out. -/
theorem reads_bootstraps_of {ι κ : Type} {items : List ι} {handle : ι → Bytes} {arguments : ι → List κ}
    {argument : κ → Bytes} (handleSlot : ι → Nat) (argumentSlot : κ → Nat) (hcount : items.length < 65536)
    (h : ∀ e ∈ items, Reads (u2 : Parse Nat) (handle e) (handleSlot e) ∧ (arguments e).length < 65536 ∧
      ∀ a ∈ arguments e, Reads (u2 : Parse Nat) (argument a) (argumentSlot a)) :
    Reads bootstraps (table items fun e => handle e ++ table (arguments e) argument)
      (items.map fun e => ⟨handleSlot e, (arguments e).map argumentSlot⟩) := by
  refine reads_table hcount ?_
  rw [List.forall₂_map_right_iff, List.forall₂_same]
  intro e he i
  obtain ⟨hhandle, hlength, harguments⟩ := h e he
  refine hhandle.bind (Reads.bind (reads_u2 hlength) (Reads.bind_nil (reads_times ?_) (reads_pure _)))
  rw [List.forall₂_map_right_iff, List.forall₂_same]
  exact fun a ha i => harguments a ha

theorem reads_bootstraps {entries : List (Int × List Int)} (hcount : entries.length < 65536)
    (hentries : ∀ e ∈ entries, IsU2 e.1 ∧ e.2.length < 65536 ∧ ∀ argument ∈ e.2, IsU2 argument) :
    Reads bootstraps
      (table entries fun (handle, arguments) => Bytes.ofInt 2 handle ++ table arguments (Bytes.ofInt 2))
      (entries.map fun (handle, arguments) => ⟨handle.toNat, arguments.map Int.toNat⟩) :=
  reads_bootstraps_of _ _ hcount fun e he =>
    ⟨reads_ofInt (hentries e he).1, (hentries e he).2.1, fun a ha => reads_ofInt ((hentries e he).2.2 a ha)⟩

/-- At most one attribute, which takes the fold from one value to the next. -/
def Step (pool : Pool) (step : α → String → Bytes → Parse α) (acc : α) (entry : List Bytes) (next : α) :
    Prop :=
  (entry = [] ∧ acc = next) ∨
    ∃ slot body name, entry = [encodeAttribute slot body] ∧ slot < 65536 ∧ body.length < 2 ^ 32 ∧
      pool.utf8 slot = .ok name ∧ Reads (step acc name body) [] next

theorem reads_go_step {step : α → String → Bytes → Parse α} {acc next last : α} {entry : List Bytes}
    {index count : Nat} {rest : Bytes} (h : Step pool step acc entry next)
    (hrest : ∀ index, Reads (attributes.go pool step next index count) rest last) :
    Reads (attributes.go pool step acc index (entry.length + count)) (entry.flatMap id ++ rest) last := by
  obtain ⟨rfl, rfl⟩ | ⟨slot, body, name, rfl, hslot, hbody, hname, hstep⟩ := h
  · simpa using hrest index
  · simpa [Nat.add_comm 1] using reads_go_cons hslot hbody hname hstep (hrest (index + 1))

/-- Two attributes, each of which may be missing. -/
theorem reads_attributes_two {step : α → String → Bytes → Parse α} {start middle last : α} {first second : List Bytes}
    (hfirst : Step pool step start first middle) (hsecond : Step pool step middle second last) :
    Reads (attributes pool start step) (table (first ++ second) id) last := by
  have hlength {acc next : α} {entry : List Bytes} (h : Step pool step acc entry next) :
      entry.length ≤ 1 := by
    obtain ⟨rfl, -⟩ | ⟨slot, body, name, rfl, -⟩ := h <;> simp
  have hcount : (first ++ second).length < 65536 := by
    have := hlength hfirst
    have := hlength hsecond
    rw [List.length_append]
    omega
  refine (reads_u2 hcount).bind ?_
  rw [List.length_append, List.flatMap_append]
  refine reads_go_step hfirst fun index => ?_
  have hlast : ∀ index, Reads (attributes.go pool step last index 0) [] last := fun _ => reads_pure last
  simpa using reads_go_step hsecond hlast

theorem indexIn_append {slot : Nat} (h : slot < 65536) (trailing : Bytes) :
    indexIn (u2Bytes slot ++ trailing) = slot := by
  rw [indexIn, Cursor.ofBytes, Cursor.u2, u2Bytes, Cursor.number_append h]

theorem indexIn_u2Bytes {slot : Nat} (h : slot < 65536) : indexIn (u2Bytes slot) = slot := by
  simpa using indexIn_append h []

/-- What an attribute adds to a class. -/
def classStep (acc : ClassFile) (kind : String) (data : Bytes) : Parse ClassFile :=
  match kind with
  | "SourceFile" => return { acc with source := ← ofPool (acc.pool.utf8 (indexIn data)) }
  | "Signature" => do
    let signature ← ofPool (acc.pool.utf8 (indexIn data))
    return { acc with header.signature := signature }
  | "BootstrapMethods" => do
    let more ← ofBytes bootstraps data
    return { acc with pool.bootstraps := acc.pool.bootstraps ++ more }
  | _ => return { acc with attributes := acc.attributes ++ [⟨kind, data⟩] }

theorem classAttributes_eq (start : ClassFile) : classAttributes start = attributes start.pool start classStep := rfl

theorem step_source {c : ClassFile} {source : String} {entry : List Bytes} (hc : c.source = "")
    (h : (source = "" ∧ entry = []) ∨ ∃ nameSlot slot, nameSlot < 65536 ∧ slot < 65536 ∧
      pool.utf8 nameSlot = .ok "SourceFile" ∧ c.pool.utf8 slot = .ok source ∧
      entry = [encodeAttribute nameSlot (u2Bytes slot)]) :
    Step pool classStep c entry { c with source } := by
  obtain ⟨rfl, rfl⟩ | ⟨nameSlot, slot, hns, hs, hname, hsource, rfl⟩ := h
  · exact .inl ⟨rfl, by rw [← hc]⟩
  · refine .inr ⟨nameSlot, u2Bytes slot, "SourceFile", rfl, hns, by simp [u2Bytes], hname, ?_⟩
    refine (reads_ofPool ?_).bind (reads_pure _)
    rw [indexIn_u2Bytes hs, hsource]

theorem step_bootstraps {c : ClassFile} {entries : List (Int × List Int)} {entry : List Bytes}
    (hcount : entries.length < 65536)
    (hentries : ∀ e ∈ entries, IsU2 e.1 ∧ e.2.length < 65536 ∧ ∀ argument ∈ e.2, IsU2 argument)
    (hlength : (table entries fun (handle, arguments) =>
      Bytes.ofInt 2 handle ++ table arguments (Bytes.ofInt 2)).length < 2 ^ 32)
    (h : (entries = [] ∧ entry = []) ∨ ∃ slot, slot < 65536 ∧ pool.utf8 slot = .ok "BootstrapMethods" ∧
      entry = [encodeAttribute slot
        (table entries fun (handle, arguments) => Bytes.ofInt 2 handle ++ table arguments (Bytes.ofInt 2))]) :
    Step pool classStep c entry { c with
      pool.bootstraps := c.pool.bootstraps ++
        entries.map fun (handle, arguments) => (⟨handle.toNat, arguments.map Int.toNat⟩ : Bootstrap) } := by
  obtain ⟨rfl, rfl⟩ | ⟨slot, hs, hname, rfl⟩ := h
  · exact .inl ⟨rfl, by simp⟩
  · refine .inr ⟨slot, _, "BootstrapMethods", rfl, hs, hlength, hname, ?_⟩
    exact (reads_ofBytes (reads_bootstraps hcount hentries)).bind (reads_pure _)

/-- What stands in a class file after its pool, up to the attributes of the class. -/
structure Body where
  access : Int
  thisSlot : Nat
  superSlot : Nat
  interfaces : List Nat
  fields : List Bytes
  methods : List Bytes

def Body.encode (b : Body) : Bytes :=
  Bytes.ofInt 2 b.access ++ u2Bytes b.thisSlot ++ u2Bytes b.superSlot ++ table b.interfaces u2Bytes ++
    table b.fields id ++ table b.methods id

/-- The parts of the body are those of a class without attributes. -/
structure Body.Of (b : Body) (c : ClassFile) : Prop where
  version : c.header.version = 52
  access : IsU2 b.access ∧ c.header.access = b.access
  thisClass : b.thisSlot < 65536 ∧ c.pool.className b.thisSlot = .ok c.header.name
  superClass : b.superSlot < 65536 ∧ c.pool.optionalClassName b.superSlot = .ok c.header.superName
  interfaces : b.interfaces.length < 65536 ∧
    List.Forall₂ (fun slot name => slot < 65536 ∧ c.pool.className slot = .ok name) b.interfaces c.header.interfaces
  fields : b.fields.length < 65536 ∧ List.Forall₂ (fun bs f => ∀ i, Reads (field c.pool i) bs f) b.fields c.fields
  methods : b.methods.length < 65536 ∧
    List.Forall₂ (fun bs m => ∀ i, Reads (method c.pool i) bs m) b.methods c.methods
  unadorned : c.header.signature = "" ∧ c.source = "" ∧ c.attributes = []

theorem Body.Of.eq {b : Body} {c : ClassFile} (h : b.Of c) :
    c = ⟨⟨52, b.access, c.header.name, "", c.header.superName, c.header.interfaces⟩, "", c.fields, c.methods, [],
      c.pool⟩ := by
  obtain ⟨⟨version, access, name, signature, superName, interfaces⟩, source, fields, methods, attributes, pool⟩ := c
  obtain ⟨rfl, ⟨-, rfl⟩, -, -, -, -, -, rfl, rfl, rfl⟩ := h
  rfl

/-- A class file is read as its attributes say, whatever the pool is read from. -/
theorem reads_classFile_attributes {poolBytes fieldsBytes methodsBytes tail : Bytes}
    {minor major access thisSlot superSlot : Nat} {slots : List Nat} {name superName : String}
    {interfaces : List String} {fields : List Field} {methods : List Method} {c : ClassFile}
    (hversion : minor < 65536 ∧ major < 65536) (hpool : Reads Pool.read poolBytes pool) (haccess : access < 65536)
    (hthis : thisSlot < 65536 ∧ pool.className thisSlot = .ok name)
    (hsuper : superSlot < 65536 ∧ pool.optionalClassName superSlot = .ok superName)
    (hinterfaces : slots.length < 65536 ∧
      List.Forall₂ (fun slot name => slot < 65536 ∧ pool.className slot = .ok name) slots interfaces)
    (hfields : Reads (do times (← u2) (field pool)) fieldsBytes fields)
    (hmethods : Reads (do times (← u2) (method pool)) methodsBytes methods)
    (htail : Reads (classAttributes ⟨⟨(65536 * minor + major : Nat), access, name, "", superName, interfaces⟩, "",
      fields, methods, [], pool⟩) tail c) :
    Reads classFile (u4Bytes 0xCAFEBABE ++ u2Bytes minor ++ u2Bytes major ++ poolBytes ++
      (u2Bytes access ++ u2Bytes thisSlot ++ u2Bytes superSlot ++ table slots u2Bytes ++ fieldsBytes ++ methodsBytes ++
        tail)) c := by
  have hnames : Reads (do times (← u2) fun index => do
      let interfaceIndex ← u2
      inside (.interface index) (ofPool (pool.className interfaceIndex))) (table slots u2Bytes) interfaces := by
    refine reads_table hinterfaces.1 (hinterfaces.2.imp fun slot name h i => ?_)
    exact (reads_u2 h.1).bind_nil (reads_inside (reads_ofPool h.2) _)
  have hrest {β γ : Type} {step : Nat → Parse γ} {bs cs : Bytes} {values : List γ} {f : List γ → Parse β} {b : β}
      (h : Reads (do times (← u2) step) bs values) (hf : Reads (f values) cs b) :
      Reads (do let count ← u2; let values ← times count step; f values) (bs ++ cs) b := by
    simpa using h.bind hf
  simp only [List.append_assoc]
  refine (reads_u4 (by decide)).bind ?_
  refine (reads_u2 hversion.1).bind ((reads_u2 hversion.2).bind ((hpool.mapError _).bind ?_))
  refine (reads_u2 haccess).bind ((reads_u2 hthis.1).bind ((reads_u2 hsuper.1).bind ?_))
  refine (reads_inside (reads_ofPool hthis.2) _).bind ((reads_inside (reads_ofPool hsuper.2) _).bind ?_)
  exact hrest hnames (hrest hfields (hrest hmethods htail))

end Parse

end Linkage
