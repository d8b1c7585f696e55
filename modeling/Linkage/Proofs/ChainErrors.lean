import Linkage.Proofs.Abort
import Linkage.Proofs.Labels
import Linkage.Proofs.Extraction

/-!
What becomes of the error of a chain. The first event that the chain refuses ends the replay, in the state that the
refusal leaves. Its error comes out as it is, unless the event is of the inside of a method's code: then it comes out
under the name and descriptor of the method that was declared last. The end of a method is not inside its code.
-/
namespace Linkage

variable {σ ε α β : Type}

/-- The method declared last, after the event. -/
def Event.declaredAfter (m : Option MethodDecl) : Event → Option MethodDecl
  | .method decl => some decl
  | _ => m

/-- The method that an error at the event is put under, where `m` is the method declared last. -/
def Event.placeIn (m : Option MethodDecl) : Event → Option (String × String)
  | .code .finish => none
  | .code _ => m.map fun decl => (decl.name, decl.descriptor)
  | _ => none

/-- The method declared last, after the cue. -/
def Cue.declaredAfter (m : Option MethodDecl) : Cue → Option MethodDecl
  | .event _ e => e.declaredAfter m
  | .fault _ _ => m

/-- The method declared last, after the cues. -/
def Cue.lastMethod (m : Option MethodDecl) (cues : List Cue) : Option MethodDecl := cues.foldl Cue.declaredAfter m

/-! The places of a script. -/

namespace Cue

/-- Every event stands under the method that its errors are put under. -/
def Placed (m : Option MethodDecl) : List Cue → Prop
  | [] => True
  | .event place e :: cues => place = e.placeIn m ∧ Placed (e.declaredAfter m) cues
  | .fault _ _ :: cues => Placed m cues

variable {m : Option MethodDecl} {first second : List Cue}

theorem placed_append : Placed m (first ++ second) ↔ Placed m first ∧ Placed (lastMethod m first) second := by
  induction first generalizing m with
  | nil => simp [Placed, lastMethod]
  | cons cue first ih =>
    cases cue with
    | event place event => simp [Placed, lastMethod, declaredAfter, ih, and_assoc]
    | fault place fault => simp [Placed, lastMethod, declaredAfter, ih]

theorem Placed.append (hf : Placed m first) (hs : ∀ m, Placed m second) : Placed m (first ++ second) :=
  placed_append.mpr ⟨hf, hs _⟩

/-- The place of an event follows from what was told before it. -/
theorem Placed.place_eq {place : Option (String × String)} {event : Event}
    (h : Placed m (first ++ .event place event :: second)) : place = event.placeIn (lastMethod m first) :=
  (placed_append.mp h).2.1

theorem placed_flatMap {ι : Type} {items : List ι} {f : ι → List Cue} (h : ∀ i ∈ items, ∀ m, Placed m (f i)) :
    Placed m (items.flatMap f) := by
  induction items generalizing m with
  | nil => trivial
  | cons i items ih =>
    rw [List.flatMap_cons, placed_append]
    exact ⟨h i (by simp) m, ih fun j hj => h j (by simp [hj])⟩

/-- Events that declare no method are placed if each is. -/
theorem placed_map {ι : Type} {items : List ι} {place : Option (String × String)} {event : ι → Event}
    (h : ∀ i ∈ items, place = (event i).placeIn m) (hm : ∀ i ∈ items, (event i).declaredAfter m = m) :
    Placed m (items.map fun i => .event place (event i)) := by
  induction items with
  | nil => trivial
  | cons i items ih =>
    refine ⟨h i (by simp), ?_⟩
    rw [hm i (by simp)]
    exact ih (fun j hj => h j (by simp [hj])) fun j hj => hm j (by simp [hj])

end Cue

namespace Code

theorem finish_notMem_labelEvents (code : Code) (labels : Std.TreeSet Label) (offset : Nat) :
    CodeEvent.finish ∉ code.labelEvents labels offset := by
  unfold labelEvents
  split <;> simp

theorem finish_notMem_instructionEvents (pool : Pool) (code : Code) (labels : Std.TreeSet Label)
    (is : List Instruction) (memo : Memo) : CodeEvent.finish ∉ (code.instructionEvents pool labels is memo).1.events := by
  induction is generalizing memo with
  | nil => exact List.not_mem_nil
  | cons i is ih =>
    have hlabels := code.finish_notMem_labelEvents labels i.offset
    rcases h : i.event pool memo with ⟨fault | e, memo'⟩
    · simp only [instructionEvents, bind, StateT.bind, ExceptT.run, h]
      exact hlabels
    · have he : CodeEvent.finish ≠ e := by
        rintro rfl
        cases Instruction.event_isInstruction h
      rw [events_of_event_ok h]
      simp [hlabels, he, ih memo']

/-- The end of a method is no event of its code. -/
theorem finish_notMem_body (pool : Pool) (code : Code) : CodeEvent.finish ∉ (code.body pool).events := by
  cases h : Instruction.decode code.bytes with
  | error error =>
    rw [body, trace, h]
    exact List.not_mem_nil
  | ok is =>
    have htold := code.finish_notMem_instructionEvents pool (Std.TreeSet.ofList (code.references is)) is []
    rw [body_of_decode h (Prod.eta _).symm]
    simp only [List.mem_cons, List.mem_append, List.mem_map, not_or, reduceCtorEq, not_false_eq_true, true_and]
    refine ⟨⟨by simp, htold⟩, ?_⟩
    split <;> simp [closingEvents]

theorem placed_cues (pool : Pool) (decl : MethodDecl) (code : Code) :
    Cue.Placed (some decl) (code.cues pool decl) := by
  refine Cue.Placed.append ?_ fun m => ?_
  · refine Cue.placed_map (fun e he => ?_) fun e _ => rfl
    have hfinish : e ≠ .finish := fun h => code.finish_notMem_body pool (h ▸ he)
    cases e with
    | finish => exact absurd rfl hfinish
    | _ => rfl
  · cases (code.body pool).fault <;> trivial

end Code

theorem Method.placed_cues (pool : Pool) (method : Method) (m : Option MethodDecl) :
    Cue.Placed m (method.cues pool) := by
  refine ⟨rfl, Cue.Placed.append ?_ fun m => ⟨rfl, trivial⟩⟩
  cases method.code with
  | none => trivial
  | some code => simpa [Event.declaredAfter] using code.placed_cues pool method.decl

/-- Each cue of a class stands under the method whose code it is in. -/
theorem ClassFile.placed_script (c : ClassFile) : Cue.Placed none c.script := by
  refine ⟨rfl, ?_⟩
  refine Cue.Placed.append (Cue.Placed.append ?_ fun m => ?_) fun m => ⟨rfl, trivial⟩
  · exact Cue.placed_map (fun _ _ => rfl) fun _ _ => rfl
  · exact Cue.placed_flatMap fun method _ => method.placed_cues c.pool

/-! The event that a performance ends at. -/

namespace Chain

/-- What the chain makes of an event, and the scope it leaves. An event of a class or a method that is not open is
passed over. -/
def answer (chain : Chain σ ε) (scope : Scope) : Event → Visit σ ε Scope
  | .declare header => do return ⟨← chain.declare header, none⟩
  | .member event => do
    if let some c := scope.opened then chain.member c event
    return scope
  | .method decl => do
    if let some c := scope.opened then return { scope with method := ← chain.method c decl }
    return scope
  | .code event => do
    if let some m := scope.method then chain.code m event
    return scope

end Chain

theorem Visit.within_pure (place : Option (String × String)) (a : α) :
    Visit.within place (pure a : Visit σ ε α) = pure a := rfl

theorem Visit.within_bind (place : Option (String × String)) (x : Visit σ ε α) (f : α → Visit σ ε β) :
    Visit.within place (x >>= f) = Visit.within place x >>= fun a => Visit.within place (f a) := by
  funext s
  rcases h : x s with ⟨e | a, s'⟩
  · have hw : Visit.within place x s = (.error ⟨place, .stage e⟩, s') := by simp [Visit.within, h]
    rw [Run.bind_error hw]
    simp [Visit.within, Run.bind_error h]
  · have hw : Visit.within place x s = (.ok a, s') := by simp [Visit.within, h]
    rw [Run.bind_ok hw]
    simp [Visit.within, Run.bind_ok h]

theorem Visit.within_eq_error_iff {place : Option (String × String)} {x : Visit σ ε α} {e : ReplayError ε} {s s' : σ} :
    Visit.within place x s = (.error e, s') ↔ ∃ error, x s = (.error error, s') ∧ e = ⟨place, .stage error⟩ := by
  rcases h : x s with ⟨error | a, s₁⟩
  · have hw : Visit.within place x s = (.error ⟨place, .stage error⟩, s₁) := by simp [Visit.within, h]
    rw [hw]
    constructor
    · intro heq
      cases heq
      exact ⟨error, rfl, rfl⟩
    · rintro ⟨error', heq, rfl⟩
      cases heq
      rfl
  · have hw : Visit.within place x s = (.ok a, s₁) := by simp [Visit.within, h]
    rw [hw]
    constructor
    · intro heq
      cases heq
    · rintro ⟨error', heq, -⟩
      cases heq

namespace Chain

variable {chain : Chain σ ε} {scope : Scope} {place : Option (String × String)} {error : StageError ε} {s s' : σ}

theorem take_event (chain : Chain σ ε) (scope : Scope) (place : Option (String × String)) (event : Event) :
    chain.take scope (.event place event) = Visit.within place (chain.answer scope event) := by
  cases event with
  | declare header => simp only [take, answer, Visit.within_bind, Visit.within_pure]
  | member event => cases h : scope.opened <;> simp only [take, answer, h, Visit.within_bind, Visit.within_pure]
  | method decl => cases h : scope.opened <;> simp only [take, answer, h, Visit.within_bind, Visit.within_pure]
  | code event => cases h : scope.method <;> simp only [take, answer, h, Visit.within_bind, Visit.within_pure]

/-- A cue ends a performance with the chain's error exactly if it is an event that the chain refuses. -/
theorem take_eq_stage_error_iff {cue : Cue} :
    chain.take scope cue s = (.error ⟨place, .stage error⟩, s') ↔
      ∃ event, cue = .event place event ∧ chain.answer scope event s = (.error error, s') := by
  cases cue with
  | event place' event =>
    rw [take_event, Visit.within_eq_error_iff]
    constructor
    · rintro ⟨error', h, heq⟩
      cases heq
      exact ⟨event, rfl, h⟩
    · rintro ⟨event', heq, h⟩
      cases heq
      exact ⟨error, h, rfl⟩
  | fault place' fault =>
    simp only [reduceCtorEq, false_and, exists_false, iff_false]
    intro h
    cases hmethod : scope.method <;> simp only [take, hmethod] at h <;> cases h

/-- A performance ends with the chain's error exactly if all cues up to some event are taken and the chain refuses
this event. -/
theorem perform_eq_stage_error_iff {cues : List Cue} :
    chain.perform cues scope s = (.error ⟨place, .stage error⟩, s') ↔
      ∃ before event after scope' s₁, cues = before ++ .event place event :: after ∧
        chain.perform before scope s = (.ok scope', s₁) ∧ chain.answer scope' event s₁ = (.error error, s') := by
  induction cues generalizing scope s with
  | nil =>
    constructor
    · intro h
      cases h
    · rintro ⟨before, event, after, _, _, h, -⟩
      simp at h
  | cons cue cues ih =>
    rw [perform_cons]
    constructor
    · intro h
      rcases ht : chain.take scope cue s with ⟨e | scope₁, s₁⟩
      · -- the cue itself is the one that is refused
        rw [Run.bind_error ht] at h
        cases h
        obtain ⟨event, rfl, hanswer⟩ := take_eq_stage_error_iff.mp ht
        exact ⟨[], event, cues, scope, s, rfl, rfl, hanswer⟩
      · rw [Run.bind_ok ht] at h
        obtain ⟨before, event, after, scope', s₂, rfl, hbefore, hanswer⟩ := ih.mp h
        exact ⟨cue :: before, event, after, scope', s₂, rfl, (Run.bind_ok ht).trans hbefore, hanswer⟩
    · rintro ⟨before, event, after, scope', s₂, hcues, hbefore, hanswer⟩
      cases before with
      | nil =>
        cases hcues
        cases hbefore
        exact Run.bind_error (take_eq_stage_error_iff.mpr ⟨event, rfl, hanswer⟩)
      | cons first before =>
        cases hcues
        obtain ⟨scope₁, s₁, ht, hbefore⟩ := Run.bind_eq_ok hbefore
        rw [Run.bind_ok ht]
        exact ih.mpr ⟨before, event, after, scope', s₂, rfl, hbefore, hanswer⟩

end Chain

namespace ClassFile

variable {c : ClassFile} {chain : Chain σ ε} {memo : Memo} {s s' : σ}

theorem replay_eq_error_iff (hm : Memo.Sound c.pool memo) {e : ReplayError ε} :
    (∃ memo', c.replay chain (memo, s) = (.error e, (memo', s'))) ↔
      chain.perform c.script {} s = (.error e, s') := by
  obtain ⟨memo', -, h⟩ := c.replay_eq_perform chain hm s
  rw [h]
  rcases chain.perform c.script {} s with ⟨e' | scope, s₁⟩
  · constructor
    · rintro ⟨_, heq⟩
      cases heq
      rfl
    · intro heq
      cases heq
      exact ⟨memo', rfl⟩
  · constructor
    · rintro ⟨_, heq⟩
      cases heq
    · intro heq
      cases heq

/-- A replay ends with an error of the chain exactly at the first event that the chain refuses, in the state that the
refusal leaves and with this very error. It comes under the method declared last if the event is of the inside of its
code, and as it is otherwise. -/
theorem replay_stage_error_iff (hm : Memo.Sound c.pool memo) (place : Option (String × String))
    (error : StageError ε) :
    (∃ memo', c.replay chain (memo, s) = (.error ⟨place, .stage error⟩, (memo', s'))) ↔
      ∃ before p event after scope s₁, c.script = before ++ .event p event :: after ∧
        chain.perform before {} s = (.ok scope, s₁) ∧ chain.answer scope event s₁ = (.error error, s') ∧
        place = event.placeIn (Cue.lastMethod none before) := by
  have hplace {before after : List Cue} {p : Option (String × String)} {event : Event}
      (hscript : c.script = before ++ .event p event :: after) : p = event.placeIn (Cue.lastMethod none before) := by
    have hplaced := c.placed_script
    rw [hscript] at hplaced
    exact hplaced.place_eq
  rw [replay_eq_error_iff hm, Chain.perform_eq_stage_error_iff]
  constructor
  · rintro ⟨before, event, after, scope, s₁, hscript, hbefore, hanswer⟩
    exact ⟨before, place, event, after, scope, s₁, hscript, hbefore, hanswer, hplace hscript⟩
  · rintro ⟨before, p, event, after, scope, s₁, hscript, hbefore, hanswer, rfl⟩
    rw [hplace hscript] at hscript
    exact ⟨before, event, after, scope, s₁, hscript, hbefore, hanswer⟩

/-- The declaration of the method and the start of its code are both refused with the sink's error; only the second
comes under the name of the method. -/
theorem caller_replay_stage_errors :
    Memo.Sound caller.pool [] ∧
      (∃ memo, caller.replay (Chain.direct (Sink.upTo 1)) ([], 0) =
        (.error ⟨none, .stage (.failed "full")⟩, (memo, 1))) ∧
      ∃ memo, caller.replay (Chain.direct (Sink.upTo 2)) ([], 0) =
        (.error ⟨some ("f", "()V"), .stage (.failed "full")⟩, (memo, 2)) := by
  have hm := Memo.sound_nil caller.pool
  refine ⟨hm, ?_, ?_⟩
  · apply (replay_stage_error_iff hm none (.failed "full")).mpr
    exact ⟨caller.script.take 1, _, _, _, _, _, (List.take_append_drop 1 _).symm, by cbv, by cbv, by cbv⟩
  · apply (replay_stage_error_iff hm (some ("f", "()V")) (.failed "full")).mpr
    exact ⟨caller.script.take 2, _, _, _, _, _, (List.take_append_drop 2 _).symm, by cbv, by cbv, by cbv⟩

/-- Not every error of a chain comes out of a replay as it is. -/
theorem play_stage_error_not_bare :
    ¬ ∀ (data : Bytes) (c : ClassFile) (chain : Chain Nat String) (s : Nat), parse data = .ok c →
      ∀ before p event after scope s₁ error s', c.script = before ++ .event p event :: after →
        chain.perform before {} s = (.ok scope, s₁) → chain.answer scope event s₁ = (.error error, s') →
        c.play chain s = (.error ⟨none, .stage error⟩, s') := by
  intro h
  have hstart := h callerBytes caller (Chain.direct (Sink.upTo 2)) 0 parse_callerBytes (caller.script.take 2) _ _ _ _ _
    (.failed "full") 2 (List.take_append_drop 2 _).symm (by cbv) (by cbv)
  have hplay : caller.play (Chain.direct (Sink.upTo 2)) 0 =
      (.error ⟨some ("f", "()V"), .stage (.failed "full")⟩, 2) := by cbv
  rw [hplay] at hstart
  cases hstart

end ClassFile

end Linkage
