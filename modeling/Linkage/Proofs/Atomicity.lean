import Linkage.Proofs.Log
import Linkage.Proofs.Recording
import Linkage.Proofs.TwoPasses

/-!
A body that does not decode is not told at all. A chain can log whatever its sink and its receivers are given without
any effect on what it does. Once a replay has come to a method, and the chain has opened it, an error of its code is the
end: the state is the one that the declaration of the method left, and the declaration is the last that is logged.
-/
namespace Linkage

namespace Run

variable {σ τ ε α β : Type}

/-- Seen through a view of its state, a computation does what another one does. -/
def Tracks (view : τ → σ) (x : Run τ ε α) (y : Run σ ε α) : Prop :=
  ∀ t, (x t).1 = (y (view t)).1 ∧ view (x t).2 = (y (view t)).2

namespace Tracks

variable {view : τ → σ}

theorem pure (a : α) : Tracks view (Pure.pure a : Run τ ε α) (Pure.pure a) := fun _ => ⟨rfl, rfl⟩

theorem throw (e : ε) : Tracks view (MonadExcept.throw e : Run τ ε α) (MonadExcept.throw e) := fun _ => ⟨rfl, rfl⟩

theorem bind {x : Run τ ε α} {y : Run σ ε α} {f : α → Run τ ε β} {g : α → Run σ ε β} (hx : Tracks view x y)
    (hf : ∀ a, Tracks view (f a) (g a)) : Tracks view (x >>= f) (y >>= g) := by
  intro t
  obtain ⟨hr, hs⟩ := hx t
  rw [bind_apply, bind_apply]
  rcases h : x t with ⟨e | a, t'⟩ <;> rcases h' : y (view t) with ⟨e' | a', s'⟩ <;> rw [h, h'] at hr hs <;> cases hr
  · exact ⟨rfl, hs⟩
  · obtain rfl : view t' = s' := hs
    exact hf a t'

theorem forM {f : α → Run τ ε PUnit} {g : α → Run σ ε PUnit} (h : ∀ a, Tracks view (f a) (g a)) (as : List α) :
    Tracks view (as.forM f) (as.forM g) := by
  induction as with
  | nil => exact .pure _
  | cons a as ih => exact (h a).bind fun _ => ih

end Tracks

end Run

/-- Something that the sink or a receiver of a chain is given. -/
inductive Heard where
  | event (event : Event)
  | access (access : Access)

variable {σ ε α : Type}

/-- Logs one thing with what a computation does. -/
def Visit.heard (thing : Heard) (step : Visit σ ε α) : Visit (Logged σ Heard) ε α := Run.logged (fun _ => step) thing

theorem Visit.tracks_heard (thing : Heard) (step : Visit σ ε α) : Run.Tracks Logged.state (heard thing step) step :=
  fun _ => ⟨rfl, rfl⟩

def Stage.logging : Stage σ ε → Stage (Logged σ Heard) ε
  | .forward => .forward
  | .dependency receiver => .dependency fun access => Visit.heard (.access access) (receiver access)

namespace Chain

/-- The chain with a log of what its sink and its receivers are given. -/
def logging (chain : Chain σ ε) : Chain (Logged σ Heard) ε :=
  ⟨chain.stages.map Stage.logging, fun event => Visit.heard (.event event) (chain.sink event)⟩

variable (chain : Chain σ ε)

theorem tracks_declare (header : Option Header) :
    Run.Tracks Logged.state (chain.logging.declare header) (chain.declare header) := by
  have hgo (stages : List (Stage σ ε)) : Run.Tracks Logged.state
      (declare.go chain.logging header (stages.map Stage.logging)) (declare.go chain header stages) := by
    induction stages with
    | nil =>
      refine (Visit.tracks_heard _ _).bind fun wanted => ?_
      cases wanted <;> exact .pure _
    | cons stage stages ih =>
      cases stage with
      | forward => exact ih
      | dependency receiver =>
        rw [List.map_cons, Stage.logging, declare.go, declare.go]
        split
        · exact .throw _
        · exact ih.bind fun next => .pure _
  exact hgo chain.stages

theorem tracks_member (c : OpenClass) (event : MemberEvent) :
    Run.Tracks Logged.state (chain.logging.member c event) (chain.member c event) := by
  unfold member
  split
  · exact (Visit.tracks_heard _ _).bind fun _ => .pure _
  · exact .pure _

theorem tracks_method (c : OpenClass) (decl : MethodDecl) :
    Run.Tracks Logged.state (chain.logging.method c decl) (chain.method c decl) := by
  have hgo (stages : List (Stage σ ε)) : Run.Tracks Logged.state
      (method.go chain.logging c decl (stages.map Stage.logging)) (method.go chain c decl stages) := by
    induction stages with
    | nil =>
      rw [List.map_nil, method.go, method.go]
      split
      · refine (Visit.tracks_heard _ _).bind fun wanted => ?_
        cases wanted <;> exact .pure _
      · exact .pure _
    | cons stage stages ih =>
      cases stage with
      | forward => exact ih
      | dependency receiver => exact ih.bind fun next => .pure _
  exact hgo chain.stages

theorem tracks_code (m : OpenMethod) (event : CodeEvent) :
    Run.Tracks Logged.state (chain.logging.code m event) (chain.code m event) := by
  have hgo (stages : List (Stage σ ε)) : Run.Tracks Logged.state
      (code.go chain.logging m event (stages.map Stage.logging)) (code.go chain m event stages) := by
    induction stages with
    | nil =>
      rw [List.map_nil, code.go, code.go]
      split
      · exact (Visit.tracks_heard _ _).bind fun _ => .pure _
      · exact .pure _
    | cons stage stages ih =>
      cases stage with
      | forward => exact ih
      | dependency receiver =>
        rw [List.map_cons, Stage.logging, code.go, code.go]
        split
        · exact (Visit.tracks_heard _ _).bind fun _ => ih
        · exact ih
  exact hgo chain.stages

/-- To declare a method is to tell the sink so, if it wants the class. -/
theorem log_method (c : OpenClass) (decl : MethodDecl) (p : Logged σ Heard) :
    (chain.logging.method c decl p).2.log = p.log ++ if c.reaches then [.event (.method decl)] else [] := by
  rw [method_eq, Run.bind_apply, wants]
  cases c.reaches with
  | false => simp
  | true =>
    simp only [if_true]
    rcases h : chain.logging.sink (.method decl) p with ⟨error | wanted, p'⟩
    all_goals
      have hlog : p'.log = p.log ++ [.event (.method decl)] := congrArg (fun r => r.2.log) h.symm
      exact hlog

theorem logging_method {chain : Chain σ ε} {c : OpenClass} {decl : MethodDecl} {s s' : σ}
    {r : Except (StageError ε) (Option OpenMethod)} (h : chain.method c decl s = (r, s')) (log : List Heard) :
    chain.logging.method c decl ⟨s, log⟩ =
      (r, ⟨s', log ++ if c.reaches then [.event (.method decl)] else []⟩) := by
  obtain ⟨hr, hs⟩ := chain.tracks_method c decl ⟨s, log⟩
  have hlog := chain.log_method c decl ⟨s, log⟩
  rcases hm : chain.logging.method c decl ⟨s, log⟩ with ⟨r', s'', log'⟩
  rw [h, hm] at hr hs
  rw [hm] at hlog
  cases hr
  cases hs
  cases hlog
  rfl

end Chain

namespace Replay

/-- The state of a replay without the log of its chain. -/
def unlogged (t : Memo × Logged σ Heard) : Memo × σ := (t.1, t.2.state)

theorem tracks_visit {x : Visit (Logged σ Heard) ε α} {y : Visit σ ε α} (h : Run.Tracks Logged.state x y)
    (place : Option (String × String)) : Run.Tracks unlogged (visit place x) (visit place y) := by
  rintro ⟨memo, p⟩
  obtain ⟨hr, hs⟩ := h p
  rcases hx : x p with ⟨error | a, p'⟩ <;> rcases hy : y p.state with ⟨error' | a', s'⟩ <;> rw [hx, hy] at hr hs <;>
    cases hr <;> cases hs <;> simp [visit, unlogged, hx, hy]

theorem tracks_resolve (x : StateM Memo α) :
    Run.Tracks unlogged (resolve x : Replay (Logged σ Heard) ε α) (resolve x : Replay σ ε α) := fun _ => ⟨rfl, rfl⟩

theorem tracks_code (chain : Chain σ ε) (pool : Pool) (m : OpenMethod) (decl : MethodDecl) (body : Code) :
    Run.Tracks unlogged (code chain.logging pool m decl body) (code chain pool m decl body) := by
  refine (tracks_resolve _).bind fun trace => ?_
  refine (Run.Tracks.forM (fun event => tracks_visit (chain.tracks_code m event) _) _).bind fun _ => ?_
  cases trace.fault with
  | none => exact .pure _
  | some fault => exact .throw _

theorem tracks_method (chain : Chain σ ε) (pool : Pool) (c : OpenClass) (m : Method) :
    Run.Tracks unlogged (method chain.logging pool c m) (method chain pool c m) := by
  refine (tracks_visit (chain.tracks_method c m.decl) none).bind fun opened => ?_
  cases opened with
  | none => exact .pure _
  | some opened =>
    have hend := tracks_visit (chain.tracks_code opened .finish) none
    cases m.code with
    | none => exact hend
    | some body => exact (tracks_code chain pool opened m.decl body).bind fun _ => hend

/-- Code that does not decode is not told, and nothing is resolved for it. -/
theorem code_of_decode_error {body : Code} {e : CodeError} (h : Instruction.decode body.bytes = .error e)
    (chain : Chain σ ε) (pool : Pool) (m : OpenMethod) (decl : MethodDecl) (memo : Memo) (s : σ) :
    code chain pool m decl body (memo, s) =
      (.error ⟨some (decl.name, decl.descriptor), .body (.code e)⟩, (memo, s)) := by
  have hresolve : resolve (body.trace pool) (memo, s) =
      ((.ok ⟨[], some (.code e)⟩, (memo, s)) : Except (ReplayError ε) Trace × Memo × σ) := by
    simp only [resolve, Code.trace, h]
    rfl
  rw [code, Run.bind_ok hresolve]
  rfl

/-- An error of the code of an open method is one of the method: its end is not told. -/
theorem method_of_code_error {chain : Chain σ ε} {pool : Pool} {c : OpenClass} {m : Method} {body : Code}
    {opened : OpenMethod} {memo : Memo} {s s' : σ} {error : ReplayError ε} {t : Memo × σ} (hcode : m.code = some body)
    (hopen : chain.method c m.decl s = (.ok (some opened), s'))
    (herror : code chain pool opened m.decl body (memo, s') = (.error error, t)) :
    method chain pool c m (memo, s) = (.error error, t) := by
  have hvisit : visit none (chain.method c m.decl) (memo, s) =
      ((.ok (some opened), (memo, s')) : Except (ReplayError ε) _ × Memo × σ) := by simp [visit, hopen]
  rw [method, Run.bind_ok hvisit]
  dsimp only
  rw [hcode]
  exact Run.bind_error herror

end Replay

namespace ClassFile

/-- The replay up to its first `k` methods; gives the class if the chain has opened it. -/
def approach (c : ClassFile) (chain : Chain σ ε) (k : Nat) : Replay σ ε (Option OpenClass) := do
  let opened ← Replay.visit none (chain.declare (some c.header))
  if let some entered := opened then
    c.memberEvents.forM fun event => Replay.visit none (chain.member entered event)
    (c.methods.take k).forM fun m => Replay.method chain c.pool entered m
  return opened

theorem tracks_approach (c : ClassFile) (chain : Chain σ ε) (k : Nat) :
    Run.Tracks Replay.unlogged (c.approach chain.logging k) (c.approach chain k) := by
  refine (Replay.tracks_visit (chain.tracks_declare _) none).bind fun opened => ?_
  cases opened with
  | none => exact .pure _
  | some opened =>
    have hmembers := Run.Tracks.forM fun event => Replay.tracks_visit (chain.tracks_member opened event) none
    refine (hmembers _).bind fun _ => ?_
    exact (Run.Tracks.forM (fun m => Replay.tracks_method chain c.pool opened m) _).bind fun _ => .pure _

theorem logging_reaches {c : ClassFile} {chain : Chain σ ε} {k : Nat} {opened : OpenClass} {memo memo' : Memo}
    {s s' : σ} (h : c.approach chain k (memo, s) = (.ok (some opened), (memo', s'))) (log : List Heard) :
    ∃ log', c.approach chain.logging k (memo, ⟨s, log⟩) = (.ok (some opened), (memo', ⟨s', log'⟩)) := by
  obtain ⟨hr, hs⟩ := c.tracks_approach chain k (memo, ⟨s, log⟩)
  have hview : Replay.unlogged (memo, (⟨s, log⟩ : Logged σ Heard)) = (memo, s) := rfl
  rcases ha : c.approach chain.logging k (memo, ⟨s, log⟩) with ⟨r, memo₁, s₁, log'⟩
  rw [hview, h, ha] at hr hs
  cases hr
  cases hs
  exact ⟨log', rfl⟩

/-- What is remembered on the way to a method is sound. -/
theorem approach_sound (c : ClassFile) (chain : Chain σ ε) (k : Nat) :
    Replay.EndsIn c.pool (fun _ => True) (c.approach chain k) := by
  have hvisit {α : Type} (step : Visit σ ε α) : Replay.EndsIn c.pool (fun _ => True) (Replay.visit none step) :=
    .visit (fun _ => trivial) step
  refine (hvisit _).bind fun opened => ?_
  cases opened with
  | none => exact .pure _
  | some opened =>
    refine (Replay.EndsIn.forM fun event _ => hvisit _).bind fun _ => ?_
    exact (Replay.EndsIn.of_mirrors (Method.cues_mirror_all chain c.pool opened none _)).bind fun _ => .pure _

/-- An error of a method that a replay comes to is one of the replay. -/
theorem replay_of_method_error {c : ClassFile} {chain : Chain σ ε} {k : Nat} {m : Method} {opened : OpenClass}
    {t t₁ t₂ : Memo × σ} {error : ReplayError ε} (hmethod : c.methods[k]? = some m)
    (hreached : c.approach chain k t = (.ok (some opened), t₁))
    (herror : Replay.method chain c.pool opened m t₁ = (.error error, t₂)) :
    c.replay chain t = (.error error, t₂) := by
  obtain ⟨declared, u, hdeclare, hrest⟩ := Run.bind_eq_ok hreached
  cases declared with
  | none => cases hrest
  | some declared =>
    obtain ⟨_, v, hmembers, hrest⟩ := Run.bind_eq_ok hrest
    obtain ⟨_, w, hbefore, hlast⟩ := Run.bind_eq_ok hrest
    cases hlast
    have hsplit : c.methods = c.methods.take k ++ m :: c.methods.drop (k + 1) := by
      obtain ⟨hk, rfl⟩ := List.getElem?_eq_some_iff.mp hmethod
      rw [← List.drop_eq_getElem_cons hk, List.take_append_drop]
    have hmethods : (c.methods.forM fun m => Replay.method chain c.pool opened m) v = (.error error, t₂) := by
      rw [hsplit]
      exact (congrFun List.forM_append _).trans ((Run.bind_ok hbefore).trans (Run.bind_error herror))
    exact (Run.bind_ok hdeclare).trans ((Run.bind_ok hmembers).trans (Run.bind_error hmethods))

/-- Let a replay come to a method, and let the chain open it. If the code of the method does not decode, the replay ends
with that error in the state that the declaration of the method left, and a chain that logs all that its sink and its
receivers are given has logged nothing of the method but this declaration. Otherwise the code is told as by two passes,
which both go through all instructions of the code, and the second one breaks off only for an error of the chain or for
an operand that the pool does not resolve; that error is the one of the replay. -/
theorem undecodable_code_untold {c : ClassFile} {chain : Chain σ ε} {k : Nat} {m : Method} {code : Code}
    {opened : OpenClass} {inside : OpenMethod} {memo memo₁ : Memo} {s s₁ s₂ : σ} (hmemo : Memo.Sound c.pool memo)
    (hmethod : c.methods[k]? = some m) (hcode : m.code = some code)
    (hreached : c.approach chain k (memo, s) = (.ok (some opened), (memo₁, s₁)))
    (hopen : chain.method opened m.decl s₁ = (.ok (some inside), s₂)) :
    let place := some (m.decl.name, m.decl.descriptor)
    (∀ e, Instruction.decode code.bytes = .error e →
      c.replay chain (memo, s) = (.error ⟨place, .body (.code e)⟩, (memo₁, s₂)) ∧
      ∃ log, c.approach chain.logging k (memo, ⟨s, []⟩) = (.ok (some opened), (memo₁, ⟨s₁, log⟩)) ∧
        c.replay chain.logging (memo, ⟨s, []⟩) = (.error ⟨place, .body (.code e)⟩,
          (memo₁, ⟨s₂, log ++ if opened.reaches then [.event (.method m.decl)] else []⟩))) ∧
    ((Replay.codeInPasses chain c.pool inside m.decl code (memo₁, s₂)).1 =
        (Replay.code chain c.pool inside m.decl code (memo₁, s₂)).1 ∧
      (Replay.codeInPasses chain c.pool inside m.decl code (memo₁, s₂)).2.2 =
        (Replay.code chain c.pool inside m.decl code (memo₁, s₂)).2.2) ∧
    ∀ is, Instruction.decode code.bytes = .ok is →
      (∀ {τ ρ : Type} (fail : CodeError → ρ) (act : Instruction → Run τ ρ Unit),
        Instruction.walk fail act code.bytes = is.forM act) ∧
      (∀ labels, Replay.EndsIn c.pool (ReplayError.OfTelling c.pool place is)
        (Replay.secondPass chain c.pool inside place code labels)) ∧
      ∀ error t, Replay.code chain c.pool inside m.decl code (memo₁, s₂) = (.error error, t) →
        c.replay chain (memo, s) = (.error error, t) ∧ error.OfTelling c.pool place is := by
  intro place
  have hsound : Memo.Sound c.pool memo₁ := by
    have h := (c.approach_sound chain k memo s hmemo).1
    rw [hreached] at h
    exact h
  have hpasses := Replay.codeInPasses_eq hsound chain inside m.decl code s₂
  refine ⟨fun e he => ⟨?_, ?_⟩, hpasses, fun is his => ⟨?_, ?_, fun error t ht => ⟨?_, ?_⟩⟩⟩
  · have hbody := Replay.code_of_decode_error he chain c.pool inside m.decl memo₁ s₂
    exact replay_of_method_error hmethod hreached (Replay.method_of_code_error hcode hopen hbody)
  · obtain ⟨log, hreached'⟩ := logging_reaches hreached []
    have hbody := Replay.code_of_decode_error he chain.logging c.pool inside m.decl memo₁
      ⟨s₂, log ++ if opened.reaches then [.event (.method m.decl)] else []⟩
    have hopen' := Chain.logging_method hopen log
    exact ⟨log, hreached', replay_of_method_error hmethod hreached' (Replay.method_of_code_error hcode hopen' hbody)⟩
  · exact fun fail act => Instruction.walk_of_decode_ok his fail act
  · exact fun labels => Replay.secondPass_endsIn his labels
  · exact replay_of_method_error hmethod hreached (Replay.method_of_code_error hcode hopen ht)
  · refine (Replay.codeInPasses_endsIn his chain c.pool inside m.decl memo₁ s₂ hsound).2 error ?_
    rw [hpasses.1, ht]

/-- Code that calls `B.f` before a byte that is no opcode. -/
def garbledCode : Code := ⟨1, 0, [184, 0, 8, 203], [], []⟩

/-- The class `A` with a second method that has such code. -/
def garbled : ClassFile :=
  { caller with methods := caller.methods ++ [⟨⟨9, "g", "()V", "", []⟩, some garbledCode⟩] }

/-- Of the two methods only the first one makes references. -/
theorem garbled_untold :
    let chain : Chain (List Access) Unit := ⟨[.dependency fun access => modify (· ++ [access])], fun _ => pure true⟩
    let calls : List Access := [⟨⟨"A", "f"⟩, ⟨"B", "f"⟩⟩, ⟨⟨"A", "f"⟩, ⟨"B", "f"⟩⟩]
    garbled.replay chain ([], []) = (.error ⟨some ("g", "()V"), .body (.code (.unknown 203 3))⟩, ([], calls)) := by
  intro chain calls
  have hmethod : garbled.methods[1]? = some ⟨⟨9, "g", "()V", "", []⟩, some garbledCode⟩ := rfl
  have hreached : garbled.approach chain 1 ([], []) = (.ok (some ⟨"A", true⟩), ([], calls)) := by cbv
  have hopen : chain.method ⟨"A", true⟩ ⟨9, "g", "()V", "", []⟩ calls = (.ok (some ⟨⟨"A", "g"⟩, true⟩), calls) := by cbv
  have hdecode : Instruction.decode garbledCode.bytes = .error (.unknown 203 3) := by cbv
  have hends := undecodable_code_untold (Memo.sound_nil garbled.pool) hmethod rfl hreached hopen
  exact (hends.1 _ hdecode).1

end ClassFile

end Linkage
