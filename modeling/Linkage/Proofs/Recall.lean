import Linkage.Proofs.Scheduling

/-!
What an analysis has been through does not show in what it answers. Calls for single sources, whole runs with any
outcome and workers that are anywhere in a batch leave nothing behind but classes that were extracted from bytes met on
the way. So the next source is answered as if it were the first, unless its fingerprint is that of other bytes.
-/
namespace Linkage

/-- Whatever its outcome, a computation keeps `I`. -/
def Run.Keeps {σ ε α : Type} (I : σ → Prop) (x : Run σ ε α) : Prop := ∀ s, I s → I (x s).2

namespace Run

variable {σ ε α β : Type} {I : σ → Prop}

theorem Yields.keeps {x : Run σ ε α} {r : Except ε α} (h : Yields I x r) : Keeps I x := by
  intro s hs
  obtain ⟨s', hx, hs'⟩ := h s hs
  rw [hx]
  exact hs'

theorem Keeps.bind {x : Run σ ε α} {f : α → Run σ ε β} (hx : Keeps I x) (hf : ∀ a, Keeps I (f a)) :
    Keeps I (x >>= f) := by
  intro s hs
  have hs' := hx s hs
  rcases h : x s with ⟨e | a, s'⟩
  · rw [bind_error h]
    rwa [h] at hs'
  · rw [bind_ok h]
    rw [h] at hs'
    exact hf a s' hs'

end Run

namespace Analysis

variable {ε : Type} {config : Config} {place : Workplace} {seen : Set Bytes}

theorem outcomeOf_keeps {σ δ α : Type} {I : σ → Prop} {x : Run σ δ α} (h : x.Keeps I) :
    (outcomeOf x : Run σ ε (Except δ α)).Keeps I := h

theorem notify_keeps (n : Notice) : (notify n : Run Analysis ε Unit).Keeps (Remembers config seen) :=
  (notify_yields n).keeps

theorem classOf_keeps {source : Source} (hsource : source.data ∈ seen) :
    (classOf config source).Keeps (Remembers config seen) := by
  rw [classOf_eq]
  refine Run.Keeps.bind (fun a ha => ha) fun found => ?_
  cases found with
  | none => exact (learn_yields hsource).keeps
  | some c => exact (Run.yields_pure _).keeps

theorem settle_keeps (source : Source) (outcome : Except (ExtractError Empty) (Option ClassRecord)) :
    (settle config source outcome : Run Analysis (AnalysisError ε) _).Keeps (Remembers config seen) := by
  cases outcome with
  | ok c => exact (Run.yields_pure _).keeps
  | error error =>
    rw [settle]
    cases config.strict with
    | true => exact (Run.yields_throw _).keeps
    | false => exact (notify_keeps _).bind fun _ => (Run.yields_pure _).keeps

theorem classesOf_keeps (cancelled : Bool) {sources : List Source} (hsources : ∀ source ∈ sources, source.data ∈ seen) :
    (classesOf config cancelled sources : Run Analysis (AnalysisError ε) _).Keeps (Remembers config seen) := by
  induction sources with
  | nil => exact (Run.yields_pure _).keeps
  | cons source rest ih =>
    have hrest := ih fun s hs => hsources s (by simp [hs])
    have hclass : (classOf config source).Keeps (Remembers config seen) := classOf_keeps (hsources source (by simp))
    cases cancelled with
    | true => exact (Run.yields_throw _).keeps
    | false =>
      rw [classesOf_cons]
      exact (outcomeOf_keeps hclass).bind fun outcome => (settle_keeps source outcome).bind fun found =>
        hrest.bind fun others => (Run.yields_pure _).keeps

theorem addFiles_keeps (cancelled : Bool) {files : List String} (hfiles : ∀ file ∈ files, Covers place seen file)
    (m : Model) : (addFiles config cancelled place m files : Run Analysis (AnalysisError ε) _).Keeps
      (Remembers config seen) := by
  induction files generalizing m with
  | nil => exact (Run.yields_pure _).keeps
  | cons file files ih =>
    have hcovers := hfiles file (by simp)
    rw [addFiles]
    cases hload : Source.load place file with
    | error error => exact (Run.yields_throw _).keeps
    | ok sources =>
      have hsources : sourcesIn place file = sources := by simp [sourcesIn, hload, Except.toOption]
      rw [Covers, hsources] at hcovers
      exact (classesOf_keeps cancelled hcovers).bind fun records => ((addAll_yields m records).keeps).bind fun m' =>
        ih (fun f hf => hfiles f (by simp [hf])) m'

/-- All sources at some locations; none where the files there cannot be listed. -/
def sourcesAt (config : Config) (place : Workplace) (locations : List String) : List Source :=
  ((filesOf config place locations).toOption.getD []).flatMap (sourcesIn place)

theorem modelOf_keeps (cancelled : Bool) {locations : List String}
    (hsources : ∀ source ∈ sourcesAt config place locations, source.data ∈ seen) :
    (modelOf config cancelled place locations : Run Analysis (AnalysisError ε) _).Keeps (Remembers config seen) := by
  unfold modelOf
  unfold sourcesAt at hsources
  cases hfiles : filesOf config place locations with
  | error error => exact (Run.yields_throw _).keeps
  | ok files =>
    rw [hfiles] at hsources
    have hcovers (file : String) (hf : file ∈ files) : Covers place seen file :=
      fun source hs => hsources source (List.mem_flatMap.mpr ⟨file, hf, hs⟩)
    exact (addFiles_keeps cancelled hcovers Model.empty).bind fun m =>
      (notify_keeps _).bind fun _ => (Run.yields_pure _).keeps

end Analysis

namespace Job

open Analysis

variable {ε : Type} {config : Config} {seen : Set Bytes} {job job' : Job} {a a' : Analysis}

theorem advance_keeps (hrest : ∀ source ∈ job.rest, source.data ∈ seen) :
    (job.advance config : Run Analysis (AnalysisError ε) Job).Keeps (Remembers config seen) := by
  obtain ⟨file, pending, missed, found⟩ := job
  match missed, pending with
  | some source, pending =>
    have hlearn : (learn config source).Keeps (Remembers config seen) :=
      (learn_yields (hrest source (by simp [rest]))).keeps
    exact (outcomeOf_keeps hlearn).bind fun outcome => (settle_keeps source outcome).bind fun found =>
      (Run.yields_pure _).keeps
  | none, source :: pending =>
    refine Run.Keeps.bind (fun a ha => ha) fun found => ?_
    cases found with
    | none => exact (Run.yields_pure _).keeps
    | some c => exact (Run.yields_pure _).keeps
  | none, [] => exact (Run.yields_pure _).keeps

/-- A step leaves no source to do that was not there before. -/
theorem rest_advance (h : (job.advance config : Run Analysis (AnalysisError ε) Job) a = (.ok job', a')) :
    ∀ source ∈ job'.rest, source ∈ job.rest := by
  obtain ⟨file, pending, missed, found⟩ := job
  match missed, pending with
  | some source, pending =>
    obtain ⟨outcome, a₁, -, h⟩ := Run.bind_eq_ok h
    obtain ⟨more, a₂, -, h⟩ := Run.bind_eq_ok h
    cases h
    exact fun s hs => by simp_all [rest]
  | none, source :: pending =>
    obtain ⟨c, a₁, -, h⟩ := Run.bind_eq_ok h
    cases c with
    | none =>
      cases h
      exact fun s hs => hs
    | some c =>
      cases h
      exact fun s hs => by simp_all [rest]
  | none, [] =>
    cases h
    exact fun s hs => hs

end Job

namespace Batch

open Analysis

variable {ε : Type} {config : Config} {place : Workplace} {workers : Nat} {seen : Set Bytes} {b b' : Batch ε}

/-- What is remembered was extracted from bytes that were seen, and no other bytes are still to come. -/
structure Confined (config : Config) (place : Workplace) (seen : Set Bytes) (b : Batch ε) : Prop where
  remembers : b.analysis.Remembers config seen
  waiting : ∀ file ∈ b.waiting, Covers place seen file
  jobs : ∀ job ∈ b.jobs, ∀ source ∈ job.rest, source.data ∈ seen

theorem Confined.step (h : b.Confined config place seen) (hstep : Step config place workers b b') :
    b'.Confined config place seen := by
  cases hstep with
  | @take file waiting sources hwaiting hfree hload =>
    have hsources : sourcesIn place file = sources := by simp [sourcesIn, hload, Except.toOption]
    refine ⟨h.remembers, fun f hf => h.waiting f (by simp [hwaiting, hf]), fun job hjob => ?_⟩
    obtain rfl | hjob := List.mem_cons.mp hjob
    · have hcovers := h.waiting file (by simp [hwaiting])
      rw [Covers, hsources] at hcovers
      simpa [Job.ofSources, Job.rest] using hcovers
    · exact h.jobs job hjob
  | refuse hwaiting hfree hload =>
    exact ⟨h.remembers, fun f hf => h.waiting f (by simp [hwaiting, hf]), h.jobs⟩
  | @advance before after job job' a hjobs hdone hrun =>
    have hjob := h.jobs job (by simp [hjobs])
    have hkept := Job.advance_keeps (ε := ε) hjob b.analysis h.remembers
    rw [hrun] at hkept
    refine ⟨hkept, h.waiting, fun j hj => ?_⟩
    obtain hj | rfl | hj := by simpa using hj
    · exact h.jobs j (by simp [hjobs, hj])
    · exact fun source hs => hjob source (Job.rest_advance hrun source hs)
    · exact h.jobs j (by simp [hjobs, hj])
  | @abandon before after job error a hjobs hrun =>
    have hkept := Job.advance_keeps (ε := ε) (h.jobs job (by simp [hjobs])) b.analysis h.remembers
    rw [hrun] at hkept
    refine ⟨hkept, h.waiting, fun j hj => h.jobs j ?_⟩
    rw [hjobs]
    simp only [List.mem_append, List.mem_cons] at hj ⊢
    tauto
  | @merge before after job m a hjobs hdone hrun =>
    have hkept := (addAll_yields (ε := AnalysisError ε) b.model job.found).keeps b.analysis h.remembers
    rw [hrun] at hkept
    refine ⟨hkept, h.waiting, fun j hj => h.jobs j ?_⟩
    rw [hjobs]
    simp only [List.mem_append, List.mem_cons] at hj ⊢
    tauto

theorem Confined.run (h : b.Confined config place seen)
    (hrun : Relation.ReflTransGen (Step config place workers) b b') : b'.Confined config place seen := by
  induction hrun with
  | refl => exact h
  | tail _ hstep ih => exact ih.step hstep

end Batch

namespace Analysis

variable {config : Config} {sources : List Source} {a : Analysis}

/-- An analysis that has been through calls, runs and batches, from nothing on. The sources are all that it may have
met. A run may be cancelled and may fail; a batch may be anywhere in its work. -/
inductive History (config : Config) : List Source → Analysis → Prop
  | fresh : History config [] {}
  | call {sources : List Source} {a : Analysis} (h : History config sources a) (source : Source) :
      History config (source :: sources) (classOf config source a).2
  | run {sources : List Source} {a : Analysis} {ε : Type} (h : History config sources a) (cancelled : Bool)
      (place : Workplace) (locations : List String) :
      History config (sourcesAt config place locations ++ sources)
        ((modelOf config cancelled place locations : Run Analysis (AnalysisError ε) Model) a).2
  | batch {sources : List Source} {a : Analysis} {ε : Type} (h : History config sources a) {place : Workplace}
      {workers : Nat} {files : List String} {b : Batch ε}
      (hb : Relation.ReflTransGen (Batch.Step config place workers) (.start a files) b) :
      History config (files.flatMap (sourcesIn place) ++ sources) b.analysis

/-- The bytes of some sources. -/
def bytesOf (sources : List Source) : Set Bytes := {data | ∃ source ∈ sources, source.data = data}

theorem Remembers.mono {more : List Source} (h : a.Remembers config (bytesOf sources))
    (hsub : ∀ source ∈ sources, source ∈ more) : a.Remembers config (bytesOf more) := by
  intro p hp
  obtain ⟨_, ⟨source, hsource, rfl⟩, hextract⟩ := h p hp
  exact ⟨_, ⟨source, hsub source hsource, rfl⟩, hextract⟩

/-- All that is remembered was extracted from bytes met on the way. -/
theorem History.remembers (h : History config sources a) : a.Remembers config (bytesOf sources) := by
  induction h with
  | fresh => exact remembers_nothing config _
  | @call sources a h source ih =>
    have hsource : source.data ∈ bytesOf (source :: sources) := ⟨source, by simp, rfl⟩
    exact classOf_keeps hsource a (ih.mono fun s hs => by simp [hs])
  | @run sources a ε h cancelled place locations ih =>
    have hsources : ∀ source ∈ sourcesAt config place locations,
        source.data ∈ bytesOf (sourcesAt config place locations ++ sources) :=
      fun source hs => ⟨source, by simp [hs], rfl⟩
    exact modelOf_keeps cancelled hsources a (ih.mono fun s hs => by simp [hs])
  | @batch sources a ε h place workers files b hb ih =>
    have hcovers : ∀ file ∈ files, Covers place (bytesOf (files.flatMap (sourcesIn place) ++ sources)) file :=
      fun file hf source hs => ⟨source, List.mem_append_left _ (List.mem_flatMap.mpr ⟨file, hf, hs⟩), rfl⟩
    have hstart : (Batch.start a files : Batch ε).Confined config place
        (bytesOf (files.flatMap (sourcesIn place) ++ sources)) :=
      ⟨ih.mono fun s hs => by simp [hs], hcovers, fun _ hjob => absurd hjob List.not_mem_nil⟩
    exact (hstart.run hb).remembers

section

variable {source : Source}

theorem learn_of_error {error : ExtractError Empty} (h : extract config source.data = .error error) :
    learn config source a = (.error error, a) := by
  rw [learn, h]
  rfl

theorem learn_of_none (h : extract config source.data = .ok none) : learn config source a = (.ok none, a) := by
  rw [learn, h]
  rfl

theorem learn_of_some {e : Extracted} (h : extract config source.data = .ok (some e)) :
    learn config source a = (.ok (some (source.record e)),
      ⟨(fingerprint source.data, e) :: a.known, .analyzed e.name e.edges.length :: a.notices⟩) := by
  rw [learn, h]
  rfl

theorem learn_fst : (learn config source a).1 = recordOf config source := by
  rw [recordOf]
  rcases h : extract config source.data with error | _ | e
  · rw [learn_of_error h]
    rfl
  · rw [learn_of_none h]
    rfl
  · rw [learn_of_some h]
    rfl

theorem classOf_of_lookup_eq_none (h : a.known.lookup (fingerprint source.data) = none) :
    classOf config source a = learn config source a := by
  rw [classOf_eq, Run.bind_ok (look_apply source a), h]
  rfl

theorem classOf_of_lookup_eq_some {e : Extracted} (h : a.known.lookup (fingerprint source.data) = some e) :
    classOf config source a = (.ok (some (source.record e)), a) := by
  rw [classOf_eq, Run.bind_ok (look_apply source a), h]
  rfl

end

/-- What is remembered does not show. After any history a source is answered as by an analysis that has met nothing,
by the class in its bytes with its own location, unless bytes met before have its fingerprint and are others. -/
theorem History.classOf_eq_fresh (h : History config sources a) (source : Source)
    (hapart : ∀ earlier ∈ sources, fingerprint earlier.data = fingerprint source.data → earlier.data = source.data) :
    (classOf config source a).1 = (classOf config source {}).1 ∧
      (classOf config source a).1 = recordOf config source := by
  have hfresh : (classOf config source {}).1 = recordOf config source := by
    rw [classOf_of_lookup_eq_none rfl, learn_fst]
  have hanswer : (classOf config source a).1 = recordOf config source := by
    cases he : a.known.lookup (fingerprint source.data) with
    | none => rw [classOf_of_lookup_eq_none he, learn_fst]
    | some e =>
      obtain ⟨before, after, hknown, -⟩ := List.lookup_eq_some_iff.mp he
      obtain ⟨_, ⟨earlier, hearlier, rfl⟩, hhash, hextract⟩ :=
        h.remembers (fingerprint source.data, e) (by simp [hknown])
      rw [hapart earlier hearlier hhash] at hextract
      rw [classOf_of_lookup_eq_some he, recordOf, hextract]
      rfl
  exact ⟨hanswer.trans hfresh.symm, hanswer⟩

/-- The class file of `caller` with a last call that leads nowhere. -/
def strayBytes : Bytes := ClassFile.callerBytes.set 120 99

theorem extract_callerBytes : extract {} ClassFile.callerBytes =
    .ok (some ⟨"A", [⟨⟨"A", "f"⟩, ⟨"B", "f"⟩⟩, ⟨⟨"A", "f"⟩, ⟨"B", "f"⟩⟩]⟩) := by
  have h : (extract {} ClassFile.callerBytes).toOption =
      some (some ⟨"A", [⟨⟨"A", "f"⟩, ⟨"B", "f"⟩⟩, ⟨⟨"A", "f"⟩, ⟨"B", "f"⟩⟩]⟩) := by decide +kernel
  cases he : extract {} ClassFile.callerBytes <;> simp_all [Except.toOption]

theorem extract_strayBytes : ∃ error, extract {} strayBytes = .error error := by
  have h : (extract {} strayBytes).toOption = none := by decide +kernel
  cases he : extract {} strayBytes <;> simp_all [Except.toOption]

/-- One source that fails, one that is remembered, and another one with the bytes of that. -/
theorem History.caller_recalled :
    ∃ a : Analysis, History {} [⟨"A", "a.jar", ClassFile.callerBytes⟩, ⟨"A", "stray.jar", strayBytes⟩] a ∧
      a.known.length = 1 ∧
      (classOf {} ⟨"A", "b.jar", ClassFile.callerBytes⟩ a).1 = .ok (some ⟨"A", "b.jar",
        fingerprint ClassFile.callerBytes, [⟨⟨"A", "f"⟩, ⟨"B", "f"⟩⟩, ⟨⟨"A", "f"⟩, ⟨"B", "f"⟩⟩]⟩) := by
  let stray : Source := ⟨"A", "stray.jar", strayBytes⟩
  let caller : Source := ⟨"A", "a.jar", ClassFile.callerBytes⟩
  obtain ⟨error, herror⟩ := extract_strayBytes
  have hfailed : classOf {} stray {} = (.error error, {}) :=
    (classOf_of_lookup_eq_none rfl).trans (learn_of_error herror)
  have hlearned : classOf {} caller {} = (_, ⟨_ :: [], _ :: []⟩) :=
    (classOf_of_lookup_eq_none rfl).trans (learn_of_some extract_callerBytes)
  have h : History {} [caller, stray] (classOf {} caller (classOf {} stray {}).2).2 :=
    (History.fresh.call stray).call caller
  have hanswer := h.classOf_eq_fresh ⟨"A", "b.jar", ClassFile.callerBytes⟩ fun earlier hearlier heq => ?_
  · refine ⟨_, h, ?_, ?_⟩
    · rw [hfailed, hlearned]
      rfl
    · rw [hanswer.2, recordOf, extract_callerBytes]
      rfl
  · have hhash : fingerprint strayBytes ≠ fingerprint ClassFile.callerBytes := by decide +kernel
    obtain rfl | rfl : earlier = caller ∨ earlier = stray := by simpa using hearlier
    · rfl
    · exact absurd heq hhash

end Analysis
end Linkage
