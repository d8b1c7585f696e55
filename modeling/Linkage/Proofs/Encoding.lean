import Linkage.Proofs.Following

/-!
An assembly that follows a plan is encoded into a class file that is parsed into what the plan declares. While the
file is written the pool still grows; what has been written before stays right in it.
-/
namespace Linkage

open Scan Assembler Parse

variable {v : Vocabulary} {a : Assembler}

theorem adds_encodeField {f : FieldDraft} (hk : a.Keyed v) (hn : Storable f.name) (hd : Storable f.descriptor) :
    Adds v a (encodeField f) fun bs pool => IsU2 f.access → pool.slots.size ≤ 65536 →
      ∀ i, Reads (Parse.field pool i) bs ⟨f.access, f.name, f.descriptor, "", .null⟩ := by
  refine (adds_utf8 hk hn).bind fun nameSlot a₁ hk₁ _ hname => ?_
  refine (adds_utf8 hk₁ hd).bind fun descriptorSlot a₂ hk₂ hw₂ hdescriptor => ?_
  refine .pure hk₂ fun pool hw haccess hsize => ?_
  have hn' := hname pool (hw₂.trans hw)
  have hd' := hdescriptor pool hw
  exact reads_field haccess (Pool.utf8_lt hn' hsize) (Pool.utf8_lt hd' hsize) hn' hd'

theorem storable_attribute : Storable "Code" ∧ Storable "LineNumberTable" ∧ Storable "SourceFile" ∧
    Storable "BootstrapMethods" := by
  decide +kernel

theorem length_encodeAttribute (slot : Nat) (body : Bytes) : (encodeAttribute slot body).length = 6 + body.length := by
  rw [encodeAttribute, List.length_append, List.length_append]
  simp [u2Bytes, u4Bytes]

theorem adds_encodeLines {lines : List (Nat × Int)} (hk : a.Keyed v) :
    Adds v a (encodeLines lines) fun bs pool =>
      bs.length = 2 + (if lines = [] then 0 else 8 + 4 * lines.length) ∧
        (pool.slots.size ≤ 65536 → LineAttributes pool lines bs) := by
  cases lines with
  | nil => exact .pure hk fun pool _ => ⟨rfl, fun _ => .inl ⟨rfl, rfl⟩⟩
  | cons line lines =>
    refine (adds_utf8 hk storable_attribute.2.1).bind fun slot a' hk' _ hslot => .pure hk' fun pool hw => ⟨?_, ?_⟩
    · rw [List.length_append, length_encodeAttribute, length_u2Bytes,
        length_table fun item _ => show _ = 4 by simp [u2Bytes], if_neg (List.cons_ne_nil _ _)]
      omega
    · intro hsize
      exact .inr ⟨slot, Pool.utf8_lt (hslot pool hw) hsize, hslot pool hw, rfl⟩

theorem forall₂_imp_of_mem {α β : Type} {R S : α → β → Prop} {as : List α} {bs : List β} (h : List.Forall₂ R as bs)
    (himp : ∀ a b, a ∈ as → b ∈ bs → R a b → S a b) : List.Forall₂ S as bs := by
  refine List.forall₂_iff_zip.mpr ⟨h.length_eq, fun {a b} hab => ?_⟩
  obtain ⟨ha, hb⟩ := List.of_mem_zip hab
  exact himp a b ha hb (List.forall₂_zip h hab)

theorem reads_handlers {pool : Pool} {drafts : List (Int × Int × Int × Nat)}
    {handlers : List (Int × Int × Int × String)} (h : List.Forall₂ (HandlerAt pool) drafts handlers)
    (hfits : ∀ e ∈ handlers, IsU2 e.1 ∧ IsU2 e.2.1 ∧ IsU2 e.2.2.1) (hsize : pool.slots.size ≤ 65536) :
    List.Forall₂ (fun (d : Int × Int × Int × Nat) e => ∀ i, Reads (Parse.handler pool i)
      (Bytes.ofInt 2 d.1 ++ Bytes.ofInt 2 d.2.1 ++ Bytes.ofInt 2 d.2.2.1 ++ u2Bytes d.2.2.2) e) drafts
      (handlers.map fun (start, stop, target, type) => ⟨start.toNat, stop.toNat, target.toNat, type⟩) := by
  rw [List.forall₂_map_right_iff]
  refine forall₂_imp_of_mem h ?_
  rintro ⟨start, stop, target, slot⟩ ⟨start', stop', target', type⟩ - he ⟨hstart, hstop, htarget, htype⟩ i
  dsimp only at hstart hstop htarget
  subst hstart hstop htarget
  obtain ⟨hstart, hstop, htarget⟩ := hfits _ he
  exact reads_handler hstart hstop htarget (Pool.optionalClassName_lt htype hsize) htype i

/-- The code of a method that is not abstract is read as planned. -/
theorem codeAttributes_of_follows {pool : Pool} {d : MethodDraft} {e : MethodPlan} {lines : Bytes} {codeSlot : Nat}
    (h : d.Follows v pool e) (hfits : e.Fits) (hconcrete : e.isAbstract = false) (hsize : pool.slots.size ≤ 65536)
    (hlength : lines.length = 2 + (if d.lines = [] then 0 else 8 + 4 * d.lines.length))
    (hlines : LineAttributes pool d.lines lines) (hslot : pool.utf8 codeSlot = .ok "Code") :
    CodeAttributes pool (e.method d.code).code (u2Bytes 1 ++ encodeAttribute codeSlot
      (Bytes.ofInt 2 d.maxStack ++ Bytes.ofInt 2 d.maxLocals ++ u4Bytes d.code.length ++ d.code ++
        table d.handlers (fun (start, stop, target, slot) =>
          Bytes.ofInt 2 start ++ Bytes.ofInt 2 stop ++ Bytes.ofInt 2 target ++ u2Bytes slot) ++ lines)) := by
  obtain ⟨hstack, hlocals⟩ := hfits.maxs hconcrete
  obtain ⟨hcount, hhandlers⟩ := hfits.handlers hconcrete
  obtain ⟨hlineCount, hlineFits⟩ := hfits.lines hconcrete
  have hbound := hfits.length hconcrete
  have hdrafts := h.handlers pool (.refl _)
  rw [← h.maxs.1] at hstack
  rw [← h.maxs.2] at hlocals
  rw [← h.lines] at hlineCount hlineFits hbound
  rw [← h.size, ← hdrafts.length_eq] at hbound
  have hcode := reads_code hstack hlocals (show d.code.length < 2 ^ 32 by omega) (hdrafts.length_eq ▸ hcount)
    (reads_handlers hdrafts hhandlers hsize) hlineCount hlineFits hlines
  refine .inr ⟨_, codeSlot, _, ?_, Pool.utf8_lt hslot hsize, hslot, ?_, hcode, rfl⟩
  · rw [MethodPlan.method, MethodPlan.code, hconcrete, ← h.maxs.1, ← h.maxs.2, ← h.lines]
    rfl
  · have htable : (table d.handlers fun (start, stop, target, slot) =>
        Bytes.ofInt 2 start ++ Bytes.ofInt 2 stop ++ Bytes.ofInt 2 target ++ u2Bytes slot).length =
        2 + d.handlers.length * 8 := length_table fun item _ => by simp [u2Bytes]
    have hfour : (u4Bytes d.code.length).length = 4 := Bytes.length_ofNat 4 _
    simp only [List.length_append, Bytes.length_ofInt, htable, hfour, hlength]
    omega

theorem adds_encodeMethod {d : MethodDraft} {e : MethodPlan} (hk : a.Keyed v) (h : d.Follows v a.pool e) :
    Adds v a (encodeMethod d) fun bs pool => e.Fits → pool.slots.size ≤ 65536 →
      ∀ i, Reads (Parse.method pool i) bs (e.method d.code) := by
  obtain ⟨haccess, hname, hdescriptor⟩ := h.declared
  have hn : Storable d.name := hname ▸ h.storable.1
  have hd : Storable d.descriptor := hdescriptor ▸ h.storable.2
  refine (adds_utf8 hk hn).bind fun nameSlot a₁ hk₁ hw₁ hnameSlot => ?_
  refine (adds_utf8 hk₁ hd).bind fun descriptorSlot a₂ hk₂ hw₂ hdescriptorSlot => ?_
  have hmethod {pool : Pool} (hw : a₂.pool.Within pool) (hsize : pool.slots.size ≤ 65536) (hfits : e.Fits)
      {code : Option Code} {tail : Bytes} (htail : CodeAttributes pool code tail)
      (hcode : (e.method d.code).code = code) (i : Nat) : Reads (Parse.method pool i)
        (Bytes.ofInt 2 d.access ++ u2Bytes nameSlot ++ u2Bytes descriptorSlot ++ tail) (e.method d.code) := by
    have hns := hnameSlot pool (hw₂.trans hw)
    have hds := hdescriptorSlot pool hw
    have heq : e.method d.code = ⟨⟨d.access, d.name, d.descriptor, "", []⟩, code⟩ := by
      rw [← hcode, haccess, hname, hdescriptor]
      rfl
    rw [heq]
    exact reads_method (haccess ▸ hfits.access) (Pool.utf8_lt hns hsize) (Pool.utf8_lt hds hsize) hns hds htail i
  dsimp only
  by_cases habstract : d.isAbstract = true
  · rw [if_pos habstract]
    refine .pure hk₂ fun pool hw hfits hsize i => hmethod hw hsize hfits (.inl ⟨rfl, rfl⟩) ?_ i
    rw [MethodPlan.method, ← h.isAbstract, if_pos habstract]
  · rw [if_neg habstract]
    have hconcrete : e.isAbstract = false := by simpa [← h.isAbstract] using habstract
    refine (adds_encodeLines hk₂).bind fun lines a₃ hk₃ hw₃ hlines => ?_
    refine (adds_utf8 hk₃ storable_attribute.1).bind fun codeSlot a₄ hk₄ hw₄ hcodeSlot => ?_
    refine .pure hk₄ fun pool hw hfits hsize i => ?_
    have hwithin : a₂.pool.Within pool := hw₃.trans (hw₄.trans hw)
    obtain ⟨hlength, hattributes⟩ := hlines pool (hw₄.trans hw)
    rw [List.append_assoc]
    exact hmethod hwithin hsize hfits (codeAttributes_of_follows (h.mono (hw₁.trans (hw₂.trans hwithin))) hfits
      hconcrete hsize hlength (hattributes hsize) (hcodeSlot pool hw)) rfl i

theorem adds_encodeSource {source : String} (hk : a.Keyed v) (hs : Storable source) :
    Adds v a (encodeSource source) fun entry pool => pool.slots.size ≤ 65536 → ∀ c : ClassFile, c.source = "" →
      c.pool = pool → Step pool classStep c entry { c with source } := by
  rw [encodeSource]
  by_cases h : source = ""
  · rw [if_pos h]
    exact .pure hk fun pool _ _ c hc _ => step_source hc (.inl ⟨h, rfl⟩)
  · rw [if_neg h]
    refine (adds_utf8 hk storable_attribute.2.2.1).bind fun nameSlot a₁ hk₁ _ hname => ?_
    refine (adds_utf8 hk₁ hs).bind fun slot a₂ hk₂ hw₂ hslot => .pure hk₂ fun pool hw hsize c hc hpool => ?_
    have hname' := hname pool (hw₂.trans hw)
    have hslot' := hslot pool hw
    exact step_source hc (.inr ⟨nameSlot, slot, Pool.utf8_lt hname' hsize, Pool.utf8_lt hslot' hsize, hname',
      hpool ▸ hslot', rfl⟩)

theorem length_bootstraps (entries : List (Int × List Int)) :
    (table entries fun (handle, arguments) => Bytes.ofInt 2 handle ++ table arguments (Bytes.ofInt 2)).length =
      2 + 4 * entries.length + 2 * (entries.flatMap (·.2)).length := by
  have hentry (b : Int × List Int) :
      (Bytes.ofInt 2 b.1 ++ table b.2 (Bytes.ofInt 2)).length = 4 + 2 * b.2.length := by
    rw [List.length_append, length_table fun item _ => Bytes.length_ofInt 2 item, Bytes.length_ofInt]
    omega
  have hentries : (entries.flatMap fun (handle, arguments) =>
      Bytes.ofInt 2 handle ++ table arguments (Bytes.ofInt 2)).length =
        4 * entries.length + 2 * (entries.flatMap (·.2)).length := by
    induction entries with
    | nil => rfl
    | cons b entries ih =>
      rw [List.flatMap_cons, List.length_append, ih, hentry b, List.flatMap_cons, List.length_append, List.length_cons]
      omega
  rw [table, List.length_append, hentries, length_u2Bytes]
  omega

theorem adds_encodeBootstraps {entries : List (Int × List Int)} (hk : a.Keyed v) :
    Adds v a (encodeBootstraps entries) fun entry pool => pool.slots.size ≤ 65536 → entries.length < 65536 →
      (∀ e ∈ entries, IsU2 e.1 ∧ e.2.length < 65536 ∧ ∀ argument ∈ e.2, IsU2 argument) →
      2 + 4 * entries.length + 2 * (entries.flatMap (·.2)).length < 2 ^ 32 → ∀ c : ClassFile,
        Step pool classStep c entry { c with
          pool.bootstraps := c.pool.bootstraps ++
            entries.map fun (handle, arguments) => (⟨handle.toNat, arguments.map Int.toNat⟩ : Bootstrap) } := by
  rw [encodeBootstraps]
  cases entries with
  | nil => exact .pure hk fun pool _ _ hcount hentries hlength c =>
      step_bootstraps hcount hentries (by rw [length_bootstraps]; exact hlength) (.inl ⟨rfl, rfl⟩)
  | cons b bs =>
    refine (adds_utf8 hk storable_attribute.2.2.2).bind fun slot a' hk' _ hslot => ?_
    refine .pure hk' fun pool hw hsize hcount hentries hlength c => ?_
    have hname := hslot pool hw
    exact step_bootstraps hcount hentries (by rw [length_bootstraps]; exact hlength)
      (.inr ⟨slot, Pool.utf8_lt hname hsize, hname, rfl⟩)

/-- The class that is planned, with the given code for its methods and the given pool. -/
def Plan.classFile (p : Plan) (codes : List Bytes) (pool : Pool) : ClassFile where
  header := p.header
  source := p.source
  fields := p.fields.map fun f => ⟨f.access, f.name, f.descriptor, "", .null⟩
  methods := List.zipWith MethodPlan.method p.methods codes
  attributes := []
  pool := pool

/-- The code of the methods so far. -/
def Assembler.codes (a : Assembler) : List Bytes := a.methods.toList.map (·.code)

theorem encodeBody_apply (a : Assembler) : encodeBody a = (do
    let thisSlot ← type a.name
    let superSlot ← optionalType a.superName
    let interfaceSlots ← a.interfaces.mapM type
    let fields ← a.fields.mapM encodeField
    let methods ← a.methods.toList.mapM encodeMethod
    let source ← encodeSource a.source
    let bootstraps ← encodeBootstraps a.bootstraps.toList
    return (Body.mk a.access thisSlot superSlot interfaceSlots fields methods).encode ++
      table (source ++ bootstraps) id) a := rfl

theorem zipWith_codes (p : Plan) (a : Assembler) : List.zipWith MethodPlan.method p.methods a.codes =
    (a.methods.toList.zip p.methods).map fun (d, e) => e.method d.code := by
  rw [codes, List.zipWith_map_right, List.map_zip_eq_zipWith, List.zipWith_comm]
  rfl

/-- What follows the pool is read as planned. -/
theorem adds_encodeBody {p : Plan} (h : a.Follows v p) :
    Adds v a encodeBody fun bs pool => p.Fits → pool.slots.size ≤ 65536 → ∃ (b : Body) (tail : Bytes),
      bs = b.encode ++ tail ∧ b.Of { p.classFile a.codes pool with source := "" } ∧
        Reads (classAttributes { p.classFile a.codes pool with source := "" }) tail
          (p.classFile a.codes { pool with bootstraps := pool.bootstraps ++ p.linkage }) := by
  have hzip : a.methods.toList = (a.methods.toList.zip p.methods).map Prod.fst :=
    (List.map_fst_zip (Nat.le_of_eq h.methods.length_eq)).symm
  refine .of_eq (encodeBody_apply a) ?_
  rw [h.name.1, h.superName.1, h.access, h.interfaces.1, h.fields.1, h.source.1, h.bootstraps, hzip, List.mapM_map]
  refine (adds_type h.keyed h.name.2).bind fun thisSlot a₁ hk₁ hw₁ hthis => ?_
  refine (adds_optionalType hk₁ h.superName.2).bind fun superSlot a₂ hk₂ hw₂ hsuper => ?_
  refine (Adds.mapM hk₂ fun name hn a' hk' _ => adds_type hk' (h.interfaces.2 name hn)).bind
    fun interfaceSlots a₃ hk₃ hw₃ hinterfaces => ?_
  refine (Adds.mapM hk₃ fun f hf a' hk' _ => adds_encodeField hk' (h.fields.2 f hf).1 (h.fields.2 f hf).2).bind
    fun fields a₄ hk₄ hw₄ hfields => ?_
  have hw₀ : a.pool.Within a₄.pool := hw₁.trans (hw₂.trans (hw₃.trans hw₄))
  refine (Adds.mapM hk₄ fun de hde a' hk' hw' => adds_encodeMethod hk'
    ((List.forall₂_zip h.methods hde).mono (hw₀.trans hw'))).bind fun methods a₅ hk₅ hw₅ hmethods => ?_
  refine (adds_encodeSource hk₅ h.source.2).bind fun source a₆ hk₆ hw₆ hsource => ?_
  refine (adds_encodeBootstraps hk₆).bind fun bootstraps a₇ hk₇ hw₇ hbootstraps => ?_
  refine .pure hk₇ fun pool hw hfits hsize => ?_
  have hp₆ := hw₇.trans hw
  have hp₅ := hw₆.trans hp₆
  have hp₄ := hw₅.trans hp₅
  have hp₃ := hw₄.trans hp₄
  have hp₂ := hw₃.trans hp₃
  have hp₁ := hw₂.trans hp₂
  have hlt {slot : Nat} {name : String} (hname : pool.className slot = .ok name) : slot < 65536 :=
    Nat.lt_of_lt_of_le (Pool.className_lt hname) hsize
  have hslots := hinterfaces pool hp₃
  have hfieldBytes := hfields pool hp₄
  have hmethodBytes := hmethods pool hp₅
  refine ⟨_, _, rfl, ?_, ?_⟩
  · refine ⟨rfl, ⟨hfits.access, rfl⟩, ⟨hlt (hthis pool hp₁), hthis pool hp₁⟩,
      ⟨Pool.optionalClassName_lt (hsuper pool hp₂) hsize, hsuper pool hp₂⟩, ⟨?_, ?_⟩, ⟨?_, ?_⟩, ⟨?_, ?_⟩, rfl, rfl, rfl⟩
    · exact hslots.length_eq ▸ hfits.interfaces
    · exact List.Forall₂.flip (hslots.imp fun name slot hname => ⟨hlt hname, hname⟩)
    · exact hfieldBytes.length_eq ▸ hfits.fields.1
    · refine List.forall₂_map_right_iff.mpr (List.Forall₂.flip (forall₂_imp_of_mem hfieldBytes ?_))
      exact fun f bs hf _ hreads => hreads (hfits.fields.2 f hf) hsize
    · rw [← hmethodBytes.length_eq, List.length_zip, h.methods.length_eq, Nat.min_self]
      exact hfits.methods.1
    · change List.Forall₂ _ methods (List.zipWith MethodPlan.method p.methods a.codes)
      rw [zipWith_codes]
      refine List.forall₂_map_right_iff.mpr (List.Forall₂.flip (forall₂_imp_of_mem hmethodBytes ?_))
      exact fun de bs hde _ hreads => hreads (hfits.methods.2 de.2 (List.of_mem_zip hde).2) hsize
  · rw [classAttributes_eq]
    exact reads_attributes_two (hsource pool hp₆ hsize _ rfl rfl)
      (hbootstraps pool hw hsize hfits.bootstraps.1 hfits.bootstraps.2 hfits.length _)

theorem adds_encode {p : Plan} (h : a.Follows v p) : Adds v a encode fun _ _ => True := by
  have hbody := adds_encodeBody h
  exact ⟨hbody.keyed, hbody.frame, hbody.within, fun _ _ => trivial⟩

/-- A constant that its key tells can be laid out in one slot. -/
theorem Vocabulary.At.fits {pool : Pool} {index : Nat} {entry : Entry} {c : Constant} (h : v.At pool index entry)
    (hc : pool.Holds index c) (hsize : pool.slots.size ≤ 65536) : c.Fits ∧ c.isWide = false := by
  have hlt {slot : Nat} {d : Constant} (hd : pool.Holds slot d) : slot < 65536 := Nat.lt_of_lt_of_le hd.lt hsize
  have hslot (n : Int) : slotOf n < 65536 := by
    rw [slotOf]
    omega
  have hpair {slot : Nat} {spelling : String} (hp : v.PairAt pool slot spelling) : slot < 65536 := by
    obtain ⟨name, descriptor, -, -, hn⟩ := hp
    obtain ⟨first, second, hheld, -⟩ := Pool.nameAndType_eq_ok_iff.mp hn
    exact hlt hheld
  cases entry with
  | utf8 text =>
    obtain rfl := hc.unique (Pool.utf8_eq_ok_iff.mp h.2)
    exact ⟨h.1, rfl⟩
  | type name =>
    obtain ⟨slot, hheld, htext⟩ := Pool.className_eq_ok_iff.mp h
    obtain rfl := hc.unique hheld
    exact ⟨hlt htext, rfl⟩
  | string text =>
    obtain ⟨slot, hheld, htext⟩ := h
    obtain rfl := hc.unique hheld
    exact ⟨hlt (Pool.utf8_eq_ok_iff.mp htext), rfl⟩
  | integer value =>
    obtain rfl := hc.unique h
    exact ⟨trivial, rfl⟩
  | pair spelling =>
    obtain ⟨name, descriptor, -, -, hn⟩ := h
    obtain ⟨first, second, hheld, hfirst, hsecond⟩ := Pool.nameAndType_eq_ok_iff.mp hn
    obtain rfl := hc.unique hheld
    exact ⟨⟨hlt hfirst, hlt hsecond⟩, rfl⟩
  | member kind spelling =>
    obtain ⟨owner, name, descriptor, -, -, -, hm⟩ := h
    obtain ⟨kind', -, ownerSlot, pairSlot, hheld, ho, hn, -⟩ := Pool.memberRef_eq_ok_iff.mp hm
    obtain ⟨first, second, hpairHeld, -⟩ := Pool.nameAndType_eq_ok_iff.mp hn
    obtain rfl := hc.unique hheld
    exact ⟨⟨Nat.lt_of_lt_of_le (Pool.className_lt ho) hsize, hlt hpairHeld⟩, rfl⟩
  | handle kind reference =>
    obtain ⟨hheld, member, spelling, owner, name, descriptor, -, -, -, hm⟩ := h
    obtain rfl := hc.unique hheld
    exact ⟨⟨by omega, Nat.lt_of_lt_of_le (Pool.memberRef_lt hm) hsize⟩, rfl⟩
  | methodType descriptor =>
    obtain ⟨slot, hheld, htext⟩ := h
    obtain rfl := hc.unique hheld
    exact ⟨hlt (Pool.utf8_eq_ok_iff.mp htext), rfl⟩
  | dynamic bootstrap slot =>
    obtain ⟨hheld, spelling, hp⟩ := h
    obtain rfl := hc.unique hheld
    exact ⟨⟨hslot bootstrap, hpair hp⟩, rfl⟩
  | site bootstrap slot =>
    obtain ⟨hheld, spelling, hp⟩ := h
    obtain rfl := hc.unique hheld
    exact ⟨⟨hslot bootstrap, hpair hp⟩, rfl⟩

theorem size_pool (a : Assembler) : a.pool.slots.size = a.constants.size + 1 := by
  simp [pool]

theorem Assembler.Keyed.fits (hk : a.Keyed v) (hsize : a.constants.size + 1 < 65536) :
    ∀ c ∈ a.constants.toList.map (·.2), c.Fits ∧ c.isWide = false := by
  intro c hc
  obtain ⟨⟨key, d⟩, hmem, rfl⟩ := List.mem_map.mp hc
  obtain ⟨i, hi⟩ := List.getElem?_of_mem hmem
  rw [Array.getElem?_toList] at hi
  obtain ⟨entry, -, hat⟩ := hk i key d hi
  exact hat.fits (pool_holds_iff.mpr ⟨i, key, rfl, hi⟩) (by rw [size_pool]; omega)

end Linkage
