import Linkage.Proofs.Pieces

/-!
The slots of a class file over a whole run of an assembly. A chronicle goes along with the run: it keeps the outlines of
the methods and the requests that the caller made. Whatever the steps are, what it keeps is true of the state, so that
the class file can be told piece by piece.
-/
namespace Linkage

open Assembler

/-- A slot is written in the same way whether it is given or answered. -/
theorem ofInt_natCast_slot (slot : Nat) : Bytes.ofInt 2 (slot : Int) = u2Bytes slot := by
  rw [Bytes.ofInt_eq, ← Int.natCast_emod, Int.toNat_natCast, Bytes.ofNat_mod]
  rfl

theorem Traces.insnPieces {a : Assembler} (hs : a.Sound) (offset number : Nat) (i : Insn) :
    Traces a Piece.encodeAll id (i.pieces offset number) (i.bytes offset number) := by
  cases i with
  | plain | var | push | load | jump => exact .pure hs (by simp) (by simp)
  | invoke op owner name descriptor =>
    exact (note hs (.member _ owner name descriptor)).bind fun slot b hb _ hk => .pure hb (by simp) (by simpa using hk)
  | field op owner name descriptor =>
    exact (note hs (.member .field owner name descriptor)).bind fun slot b hb _ hk =>
      .pure hb (by simp) (by simpa using hk)
  | type op name =>
    exact (note hs (.type name)).bind fun slot b hb _ hk => .pure hb (by simp) (by simpa using hk)
  | loadString text =>
    exact (note hs (.string text)).bind fun slot b hb _ hk =>
      .pure hb (by simp [ofInt_natCast_slot]) (by simpa using hk)
  | loadInt value =>
    exact (note hs (.integer value)).bind fun slot b hb _ hk =>
      .pure hb (by simp [ofInt_natCast_slot]) (by simpa using hk)
  | dynamic name descriptor handle arguments =>
    exact (note hs (.site number name descriptor)).bind fun slot b hb _ hk => .pure hb (by simp) (by simpa using hk)

theorem Assembler.Inquires.insnBytes (offset number : Nat) (i : Insn) : Inquires (i.bytes offset number) := by
  cases i with
  | plain | var | push | load | jump => exact pure _
  | invoke op owner name descriptor => exact (ask (.member _ owner name descriptor)).bind fun _ => pure _
  | field op owner name descriptor => exact (ask (.member .field owner name descriptor)).bind fun _ => pure _
  | type op name => exact (ask (.type name)).bind fun _ => pure _
  | loadString text => exact (ask (.string text)).bind fun _ => pure _
  | loadInt value => exact (ask (.integer value)).bind fun _ => pure _
  | dynamic name descriptor handle arguments => exact (ask (.site number name descriptor)).bind fun _ => pure _

/-- What is kept of a run: its state, the outlines of its methods and the requests that the caller made. -/
structure Chronicle where
  state : Assembler
  outlines : List Outline := []
  asked : List Inquiry := []

namespace Chronicle

/-- The outlines after a step that is made in this state. -/
def outlinesAfter (a : Assembler) (outlines : List Outline) : Step → List Outline
  | .call (.method _ _ _) => outlines ++ [{}]
  | .call (.insn m i) => outlines.modify m fun o =>
    { o with code := o.code ++ (i.pieces (offset m a).1 a.bootstraps.size
        { a with bootstraps := a.bootstraps ++ i.bootstraps }).1 }
  | .call (.handler m start stop target type) => outlines.modify m fun o =>
    { o with handlers := o.handlers ++
        [[.bytes (Bytes.ofInt 2 start ++ Bytes.ofInt 2 stop ++ Bytes.ofInt 2 target), .optional (noteType type a).1]] }
  | .raw m bytes => outlines.modify m fun o => { o with code := o.code ++ [.bytes bytes] }
  | .call _ => outlines

def after (t : Chronicle) (s : Step) : Chronicle where
  state := (s.run t.state).2
  outlines := outlinesAfter t.state t.outlines s
  asked := match s with
    | .call (.ask q) => t.asked ++ [⟨q, t.state⟩]
    | _ => t.asked

/-- The chronicle of the steps. -/
def of (name : String) (steps : List Step) : Chronicle := steps.foldl after { state := Assembler.new name }

/-- What is kept is true of the state. -/
structure Faithful (t : Chronicle) : Prop where
  sound : t.state.Sound
  outlines : List.Forall₂ (fun d o => o.Describes t.state d) t.state.methods.toList t.outlines
  asked : ∀ i ∈ t.asked, i.KeptIn t.state

/-- A change to a draft goes with one to its outline. -/
theorem describes_draft {a : Assembler} {outlines : List Outline} {m : Nat} {change : MethodDraft → MethodDraft}
    {change' : Outline → Outline} (h : List.Forall₂ (fun d o => o.Describes a d) a.methods.toList outlines)
    (hchange : ∀ d o, o.Describes a d → (change' o).Describes a (change d)) :
    List.Forall₂ (fun d o => o.Describes (draft m change a).2 d) (draft m change a).2.methods.toList
      (outlines.modify m change') := by
  change List.Forall₂ _ (a.methods.modify m change).toList _
  rw [Array.toList_modify]
  have hmodify := forall₂_modify (f := change) (g := change') h m fun d o _ _ hd => hchange d o hd
  exact hmodify.imp fun d o hd => hd.mono (.of_constants_eq rfl)

/-- Bytes that are appended to the code of a method go with their pieces. -/
theorem describes_emit {a : Assembler} {outlines : List Outline} {m : Nat} {x : Assemble (List Piece)}
    {y : Assemble Bytes} (h : List.Forall₂ (fun d o => o.Describes a d) a.methods.toList outlines)
    (htraces : Traces a Piece.encodeAll id x y) (hy : Inquires y) :
    List.Forall₂ (fun d o => o.Describes ((y >>= raw m) a).2 d) ((y >>= raw m) a).2.methods.toList
      (outlines.modify m fun o => { o with code := o.code ++ (x a).1 }) := by
  have hm : (y a).2.methods = a.methods := by rw [hy.repeats.frame a]
  have hstate : (y a).2 = (x a).2 := congrArg Prod.snd htraces.erases
  have hlater : List.Forall₂ (fun d o => o.Describes (y a).2 d) (y a).2.methods.toList outlines := by
    rw [hm]
    exact h.imp fun d o hd => hd.mono (hy.repeats.grows a)
  refine describes_draft hlater fun d o hd => { hd with code := ?_, kept := ?_ }
  · rw [hd.code, Piece.encodeAll_append, htraces.erases]
  · have hkept := htraces.kept
    rw [← hstate] at hkept
    have hold := hd.kept
    simp_all

theorem describes_after {a : Assembler} {outlines : List Outline} (hs : a.Sound)
    (h : List.Forall₂ (fun d o => o.Describes a d) a.methods.toList outlines) (s : Step) :
    List.Forall₂ (fun d o => o.Describes (s.run a).2 d) (s.run a).2.methods.toList (outlinesAfter a outlines s) := by
  have hlater {b : Assembler} (hg : a.Grows b) (hm : b.methods = a.methods) :
      List.Forall₂ (fun d o => o.Describes b d) b.methods.toList outlines := by
    rw [hm]
    exact h.imp fun d o hd => hd.mono hg
  cases s with
  | raw m bytes =>
    refine describes_draft h fun d o hd => { hd with code := ?_, kept := ?_ }
    · rw [hd.code, Piece.encodeAll_append]
      simp
    · simpa using hd.kept
  | call c =>
    cases c with
    | setSuper | setAccess | implement | setSource | field | bootstrap | bootstrapArgument =>
      exact hlater (.of_constants_eq rfl) rfl
    | line m _ | setAbstract m | setMaxs m _ _ =>
      change List.Forall₂ _ _ outlines
      rw [← List.modify_id m outlines]
      exact describes_draft h fun d o hd => { hd with }
    | ask q =>
      have hm : (q.run a).2.methods = a.methods := by rw [(Repeats.ask q).frame a]
      exact hlater (b := (q.run a).2) ((Repeats.ask q).grows a) hm
    | encode =>
      have hrepeats := (Inquires.bodyOf a).repeats
      have hm : (bodyOf a a).2.methods = a.methods := by rw [hrepeats.frame a]
      exact hlater (b := (bodyOf a a).2) (hrepeats.grows a) hm
    | method access name descriptor =>
      change List.Forall₂ _ (a.methods.push ⟨access, name, descriptor, [], 4, 4, [], [], false⟩).toList _
      rw [Array.toList_push]
      refine List.rel_append (h.imp fun d o hd => hd.mono (.of_constants_eq rfl)) (.cons ⟨rfl, rfl, ?_⟩ .nil)
      simp
    | insn m i =>
      have hlinked : { a with bootstraps := a.bootstraps ++ i.bootstraps }.Sound := hs.of_constants_eq rfl
      rw [Step.run, Call.run, i.run_eq m a]
      exact describes_emit (hlater (.of_constants_eq rfl) rfl) (.insnPieces hlinked _ _ i) (.insnBytes _ _ i)
    | handler m start stop target type =>
      have htraces := Traces.noteType hs type
      have hrepeats := (Inquires.optionalType type).repeats
      have hm : (optionalType type a).2.methods = a.methods := by rw [hrepeats.frame a]
      have hrun : (handle m start stop target type a).2 = (draft m (fun d => { d with
        handlers := d.handlers ++ [(start, stop, target, (optionalType type a).1)] }) (optionalType type a).2).2 := rfl
      rw [Step.run, Call.run, hrun]
      refine describes_draft (hlater (hrepeats.grows a) hm) fun d o hd => { hd with handlers := ?_, kept := ?_ }
      · rw [List.map_append, List.map_append, hd.handlers, htraces.erases]
        simp [handlerBytes]
      · have hkept := htraces.kept
        have hold := hd.kept
        rw [← congrArg Prod.snd htraces.erases] at hkept
        simp_all

theorem Faithful.after {t : Chronicle} (h : t.Faithful) (s : Step) : (t.after s).Faithful := by
  obtain ⟨hs, hg⟩ := s.onlyAsks.preserves t.state h.sound
  have hasked : ∀ i ∈ t.asked, i.KeptIn (s.run t.state).2 := fun i hi => (h.asked i hi).mono hg
  refine ⟨hs, describes_after h.sound h.outlines s, ?_⟩
  cases s with
  | raw m bytes => exact hasked
  | call c =>
    cases c with
    | ask q =>
      intro i hi
      obtain hi | hi := List.mem_append.mp hi
      · exact hasked i hi
      · rw [List.mem_singleton.mp hi]
        exact Inquiry.keptIn_after h.sound q
    | _ => exact hasked

theorem faithful_of (name : String) (steps : List Step) : (of name steps).Faithful := by
  have hall {t : Chronicle} (h : t.Faithful) : (steps.foldl Chronicle.after t).Faithful := by
    induction steps generalizing t with
    | nil => exact h
    | cons s steps ih => exact ih (h.after s)
  exact hall ⟨Call.sound_runAll name [], .nil, by simp⟩

theorem state_of (name : String) (steps : List Step) :
    (of name steps).state = Step.runFrom (Assembler.new name) steps := by
  have hall (t : Chronicle) : (steps.foldl Chronicle.after t).state = Step.runFrom t.state steps := by
    induction steps generalizing t with
    | nil => rfl
    | cons s steps ih => exact ih (t.after s)
  exact hall _

/-- The class file is the pool and the pieces, and every answer has its entry in the pool that is written. -/
theorem Faithful.encode {t : Chronicle} (h : t.Faithful) :
    (Assembler.encode t.state).1 = u4Bytes 0xCAFEBABE ++ u2Bytes 0 ++ u2Bytes 52 ++
        u2Bytes ((Assembler.encode t.state).2.entries.length + 1) ++ (Assembler.encode t.state).2.entries.flatten ++
        Piece.encodeAll (bodyPieces t.state t.outlines t.state).1 ∧
      ∀ i, i ∈ t.asked ∨ .answer i ∈ (bodyPieces t.state t.outlines t.state).1 →
        i.KeptIn (Assembler.encode t.state).2 := by
  have htraces := Traces.bodyPieces h.sound h.outlines
  have hstate : (Assembler.encode t.state).2 = (bodyOf t.state t.state).2 := by rw [encode_eq]
  have hpieces : (bodyOf t.state t.state).2 = (bodyPieces t.state t.outlines t.state).2 :=
    congrArg Prod.snd htraces.erases
  constructor
  · rw [encode_eq]
    exact congrArg (_ ++ ·) (congrArg Prod.fst htraces.erases)
  · rw [hstate, hpieces]
    rintro i (hi | hi)
    · exact (h.asked i hi).mono htraces.grows
    · exact htraces.kept i hi

end Chronicle

theorem Inquiry.KeptIn.slot_le {a : Assembler} {i : Inquiry} (h : i.KeptIn a) : i.slot ≤ a.entries.length := by
  obtain ⟨entry, -, hnow⟩ := h
  cases hslot : i.slot with
  | zero => exact Nat.zero_le _
  | succ n =>
    rw [hslot] at hnow
    exact (List.getElem?_eq_some_iff.mp hnow).1

theorem Assembler.backward_new (name : String) : (Assembler.new name).Backward := by
  intro slot c hc
  obtain ⟨i, key, -, hi⟩ := pool_holds_iff.mp hc
  cases hi

/-- Whatever steps an assembly takes, the slots that were answered and all others keep their entries through any further
steps, and entries refer to earlier slots. The class file is the same when it is written once more, and then nothing
changes. As long as the number of slots can be written, the file is the pool and the pieces of its body, and each slot
that the caller or the assembly itself was answered is one of the pool and has there the entry that it had then. -/
theorem Step.pool_kept (name : String) (steps more : List Step) :
    let t := Chronicle.of name steps
    let later := runFrom t.state more
    let file := Assembler.encode t.state
    let pieces := (bodyPieces t.state t.outlines t.state).1
    t.state = runFrom (Assembler.new name) steps ∧ (∀ i ∈ t.asked, i.KeptIn later) ∧
      (∀ slot entry, t.state.entryAt slot = some entry → later.entryAt slot = some entry) ∧
      (∀ slot c, t.state.pool.Holds slot c → ∀ r ∈ c.references, 0 < r ∧ r < slot) ∧
      Assembler.encode file.2 = file ∧
      (file.2.entries.length + 1 < 65536 →
        file.1 = u4Bytes 0xCAFEBABE ++ u2Bytes 0 ++ u2Bytes 52 ++ u2Bytes (file.2.entries.length + 1) ++
          file.2.entries.flatten ++ Piece.encodeAll pieces ∧
        ∀ i, i ∈ t.asked ∨ .answer i ∈ pieces →
          i.KeptIn file.2 ∧ i.slot < file.2.entries.length + 1 ∧ (Piece.answer i).encode.toNat = i.slot ∧
            (Piece.given i.slot).encode.toNat = i.slot) := by
  intro t later file pieces
  have ht : t.Faithful := Chronicle.faithful_of name steps
  have hstate : t.state = runFrom (Assembler.new name) steps := Chronicle.state_of name steps
  have hgrows : t.state.Grows later := (runFrom_sound_and_grows ht.sound more).2
  obtain ⟨hbytes, hkept⟩ := ht.encode
  refine ⟨hstate, fun i hi => (ht.asked i hi).mono hgrows, fun slot entry => hgrows.entryAt, ?_,
    encode_again t.state, ?_⟩
  · rw [hstate]
    exact runFrom_backward (backward_new name) steps
  · intro hsize
    refine ⟨hbytes, fun i hi => ?_⟩
    have hle : i.slot ≤ file.2.entries.length := (hkept i hi).slot_le
    have hanswer : (Piece.answer i).encode.toNat = i.slot := Bytes.toNat_ofNat (show i.slot < 256 ^ 2 by omega)
    have hgiven : (Piece.given i.slot).encode.toNat = i.slot := by
      rwa [Piece.encode, ofInt_natCast_slot]
    exact ⟨hkept i hi, by omega, hanswer, hgiven⟩

/-- A string is asked for, loaded by its slot and, behind a call and a handler, still there in the file. -/
theorem Step.pool_kept_with_string :
    let t := Chronicle.of "A" [.call (.method 9 "f" "()V"), .call (.ask (.string "x")), .call (.insn 0 (.load 2)),
      .call (.insn 0 (.invoke 184 "B" "g" "()V")), .call (.handler 0 0 6 6 "E"), .raw 0 [177]]
    let file := Assembler.encode t.state
    file.2.entries.length + 1 < 65536 ∧
      ∃ i ∈ t.asked, i.slot = 2 ∧ i.KeptIn file.2 ∧ (Piece.given i.slot).encode.toNat = 2 := by
  intro t file
  have hsize : file.2.entries.length + 1 < 65536 := by decide +kernel
  obtain ⟨-, -, -, -, -, hfile⟩ := pool_kept "A" [.call (.method 9 "f" "()V"), .call (.ask (.string "x")),
    .call (.insn 0 (.load 2)), .call (.insn 0 (.invoke 184 "B" "g" "()V")), .call (.handler 0 0 6 6 "E"),
    .raw 0 [177]] []
  have hi : Inquiry.mk (.string "x") (runFrom (Assembler.new "A") [.call (.method 9 "f" "()V")]) ∈ t.asked :=
    List.mem_singleton_self _
  obtain ⟨hkept, -, -, hslot⟩ := (hfile hsize).2 _ (.inl hi)
  have htwo : (Inquiry.mk (.string "x") (runFrom (Assembler.new "A") [.call (.method 9 "f" "()V")])).slot = 2 := by
    decide +kernel
  exact ⟨hsize, _, hi, htwo, hkept, hslot.trans htwo⟩

end Linkage
