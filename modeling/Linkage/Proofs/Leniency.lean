import Linkage.Proofs.Recall

/-!
Malformed classes, and what the settings make of them. Of a source that fails nothing is left, so a lenient analysis
gives what it would give without such sources. A strict one ends at the first of them, and without any it gives the
same.
-/
namespace Linkage
namespace Analysis

variable {ε : Type} {config : Config} {place : Workplace} {known : List (UInt64 × Extracted)} {a : Analysis}

/-- What comes of a source, and what is known then. -/
def ask (config : Config) (known : List (UInt64 × Extracted)) (source : Source) :
    Except (ExtractError Empty) (Option ClassRecord) × List (UInt64 × Extracted) :=
  ((classOf config source ⟨known, []⟩).1, (classOf config source ⟨known, []⟩).2.known)

/-- Notices do not count. -/
theorem classOf_eq_ask (source : Source) (a : Analysis) :
    ∃ notices, classOf config source a = ((ask config a.known source).1, ⟨(ask config a.known source).2, notices⟩) := by
  rw [ask]
  cases h : a.known.lookup (fingerprint source.data) with
  | some e =>
    have h' : (⟨a.known, []⟩ : Analysis).known.lookup (fingerprint source.data) = some e := h
    rw [classOf_of_lookup_eq_some h, classOf_of_lookup_eq_some h']
    exact ⟨a.notices, rfl⟩
  | none =>
    have h' : (⟨a.known, []⟩ : Analysis).known.lookup (fingerprint source.data) = none := h
    rw [classOf_of_lookup_eq_none h, classOf_of_lookup_eq_none h']
    rcases he : extract config source.data with error | _ | e
    · rw [learn_of_error he, learn_of_error he]
      exact ⟨a.notices, rfl⟩
    · rw [learn_of_none he, learn_of_none he]
      exact ⟨a.notices, rfl⟩
    · rw [learn_of_some he, learn_of_some he]
      exact ⟨_, rfl⟩

/-- A source that fails leaves nothing behind. -/
theorem ask_of_error {source : Source} {error : ExtractError Empty} (h : (ask config known source).1 = .error error) :
    (ask config known source).2 = known := by
  rw [ask] at h ⊢
  cases hlookup : (⟨known, []⟩ : Analysis).known.lookup (fingerprint source.data) with
  | some e => rw [classOf_of_lookup_eq_some hlookup]
  | none =>
    rw [classOf_of_lookup_eq_none hlookup] at h ⊢
    rcases he : extract config source.data with error | _ | e
    · rw [learn_of_error he]
    · rw [learn_of_none he]
    · rw [learn_of_some he] at h
      cases h

/-- What comes of one source after the other. -/
def answers (config : Config) :
    List Source → List (UInt64 × Extracted) → List (Source × Except (ExtractError Empty) (Option ClassRecord))
  | [], _ => []
  | source :: rest, known => (source, (ask config known source).1) :: answers config rest (ask config known source).2

/-- What is known after one source and the other. -/
def knownAfter (config : Config) (sources : List Source) (known : List (UInt64 × Extracted)) :
    List (UInt64 × Extracted) :=
  sources.foldl (fun known source => (ask config known source).2) known

theorem knownAfter_cons (source : Source) (rest : List Source) :
    knownAfter config (source :: rest) known = knownAfter config rest (ask config known source).2 := rfl

theorem knownAfter_append (first second : List Source) :
    knownAfter config (first ++ second) known = knownAfter config second (knownAfter config first known) :=
  List.foldl_append

theorem answers_append (first second : List Source) (known : List (UInt64 × Extracted)) :
    answers config (first ++ second) known =
      answers config first known ++ answers config second (knownAfter config first known) := by
  induction first generalizing known with
  | nil => rfl
  | cons source rest ih => simp [answers, ih, knownAfter_cons]

/-- The sources that did not fail. -/
def survivors (answers : List (Source × Except (ExtractError Empty) (Option ClassRecord))) : List Source :=
  (answers.filter fun p => p.2.isOk).map (·.1)

/-- The classes that were found. -/
def found (answers : List (Source × Except (ExtractError Empty) (Option ClassRecord))) : List ClassRecord :=
  answers.flatMap fun p =>
    match p.2 with
    | .ok c => c.toList
    | .error _ => []

/-- The first source that failed. -/
def failure? (answers : List (Source × Except (ExtractError Empty) (Option ClassRecord))) :
    Option (Source × ExtractError Empty) :=
  answers.findSome? fun p =>
    match p.2 with
    | .ok _ => none
    | .error error => some (p.1, error)

/-- The sources that did not fail are answered as they were, and leave the same behind. -/
theorem answers_survivors (sources : List Source) (known : List (UInt64 × Extracted)) :
    answers config (survivors (answers config sources known)) known =
        (answers config sources known).filter (fun p => p.2.isOk) ∧
      knownAfter config (survivors (answers config sources known)) known = knownAfter config sources known := by
  induction sources generalizing known with
  | nil => exact ⟨rfl, rfl⟩
  | cons source rest ih =>
    rw [answers, survivors, knownAfter_cons]
    cases h : (ask config known source).1 with
    | error error =>
      rw [ask_of_error h, List.filter_cons_of_neg (by simp [Except.isOk, Except.toBool])]
      exact ih known
    | ok c =>
      rw [List.filter_cons_of_pos (by simp [Except.isOk, Except.toBool]), List.map_cons, answers, knownAfter_cons, h]
      exact ⟨congrArg _ (ih _).1, (ih _).2⟩

theorem found_filter (answers : List (Source × Except (ExtractError Empty) (Option ClassRecord))) :
    found (answers.filter fun p => p.2.isOk) = found answers := by
  induction answers with
  | nil => rfl
  | cons p rest ih =>
    obtain ⟨source, error | c⟩ := p
    · simpa [found, Except.isOk, Except.toBool] using ih
    · simpa [found, Except.isOk, Except.toBool] using ih

theorem failure?_filter (answers : List (Source × Except (ExtractError Empty) (Option ClassRecord))) :
    failure? (answers.filter fun p => p.2.isOk) = none := by
  rw [failure?, List.findSome?_eq_none_iff]
  rintro ⟨source, error | c⟩ hp
  · simp [Except.isOk, Except.toBool] at hp
  · rfl

theorem map_fst_answers (sources : List Source) (known : List (UInt64 × Extracted)) :
    (answers config sources known).map (·.1) = sources := by
  induction sources generalizing known with
  | nil => rfl
  | cons source rest ih => simp [answers, ih]

/-- No source failed just if all are left. -/
theorem failure?_eq_none_iff {sources : List Source} :
    failure? (answers config sources known) = none ↔ survivors (answers config sources known) = sources := by
  have hall (answers : List (Source × Except (ExtractError Empty) (Option ClassRecord))) :
      failure? answers = none ↔ ∀ p ∈ answers, p.2.isOk = true := by
    rw [failure?, List.findSome?_eq_none_iff]
    refine forall₂_congr fun p _ => ?_
    obtain ⟨source, error | c⟩ := p <;> simp [Except.isOk, Except.toBool]
  rw [hall, ← List.filter_eq_self, survivors]
  constructor
  · intro h
    rw [h, map_fst_answers]
  · intro h
    have hmap : (answers config sources known).length = sources.length := by
      rw [← List.length_map (·.1), map_fst_answers]
    have hlength := congrArg List.length h
    rw [List.length_map, ← hmap] at hlength
    exact List.filter_eq_self.mpr (List.length_filter_eq_length_iff.mp hlength)

/-- What the settings make of the answer for a source. -/
def judge (config : Config) (source : Source) :
    Except (ExtractError Empty) (Option ClassRecord) → Except (AnalysisError ε) (List ClassRecord)
  | .ok c => .ok c.toList
  | .error error => if config.strict then .error (.malformed source.name source.location error) else .ok []

/-- What the settings make of the answers for one source after the other. -/
def verdict (config : Config) :
    List (Source × Except (ExtractError Empty) (Option ClassRecord)) → Except (AnalysisError ε) (List ClassRecord)
  | [] => .ok []
  | (source, answer) :: rest => do
    let found ← judge config source answer
    return found ++ (← verdict config rest)

theorem verdict_append (first second : List (Source × Except (ExtractError Empty) (Option ClassRecord))) :
    (verdict config (first ++ second) : Except (AnalysisError ε) _) = (do
      let found ← verdict config first
      return found ++ (← verdict config second)) := by
  induction first with
  | nil =>
    rw [verdict, ok_bind]
    exact (bind_pure _).symm
  | cons p rest ih => simp only [List.cons_append, verdict, ih, bind_assoc, pure_bind, List.append_assoc]

theorem verdict_of_lenient (h : config.strict = false)
    (answers : List (Source × Except (ExtractError Empty) (Option ClassRecord))) :
    (verdict config answers : Except (AnalysisError ε) _) = .ok (found answers) := by
  induction answers with
  | nil => rfl
  | cons p rest ih =>
    obtain ⟨source, answer⟩ := p
    have hjudge : (judge config source answer : Except (AnalysisError ε) _) = .ok (found [(source, answer)]) := by
      cases answer with
      | ok c => simp [judge, found]
      | error error => simp [judge, found, h]
    rw [verdict, hjudge, ih]
    simp only [ok_bind, found, ← List.flatMap_append]
    rfl

theorem verdict_of_strict (h : config.strict = true)
    (answers : List (Source × Except (ExtractError Empty) (Option ClassRecord))) :
    (verdict config answers : Except (AnalysisError ε) _) =
      match failure? answers with
      | none => .ok (found answers)
      | some (source, error) => .error (.malformed source.name source.location error) := by
  induction answers with
  | nil => rfl
  | cons p rest ih =>
    obtain ⟨source, error | c⟩ := p
    · have hjudge : (judge config source (.error error) : Except (AnalysisError ε) _) =
          .error (.malformed source.name source.location error) := by simp [judge, h]
      rw [verdict, hjudge]
      rfl
    · have hfailure : failure? ((source, .ok c) :: rest) = failure? rest := rfl
      rw [verdict, judge, ok_bind, ih, hfailure]
      cases failure? rest <;> rfl

theorem settle_eq_judge (source : Source) (answer : Except (ExtractError Empty) (Option ClassRecord)) (a : Analysis) :
    ∃ notices, (settle config source answer : Run Analysis (AnalysisError ε) _) a =
      (judge config source answer, ⟨a.known, notices⟩) := by
  cases answer with
  | ok c => exact ⟨a.notices, rfl⟩
  | error error =>
    rw [settle, judge]
    cases config.strict with
    | true => exact ⟨a.notices, rfl⟩
    | false => exact ⟨.skipped source.name source.location error :: a.notices, rfl⟩

/-- The classes of sources are what the settings make of the answers. -/
theorem classesOf_eq_verdict (sources : List Source) (a : Analysis) :
    ∃ a', (classesOf config false sources : Run Analysis (AnalysisError ε) _) a =
        (verdict config (answers config sources a.known), a') ∧
      ∀ records, (verdict config (answers config sources a.known) : Except (AnalysisError ε) _) = .ok records →
        a'.known = knownAfter config sources a.known := by
  induction sources generalizing a with
  | nil => exact ⟨a, rfl, fun _ _ => rfl⟩
  | cons source rest ih =>
    obtain ⟨notices, hclass⟩ : ∃ notices, classOf config source a = _ := classOf_eq_ask source a
    have houtcome : (outcomeOf (classOf config source) : Run Analysis (AnalysisError ε) _) a =
        (.ok (ask config a.known source).1, ⟨(ask config a.known source).2, notices⟩) := by rw [outcomeOf, hclass]
    obtain ⟨notices', hsettle⟩ : ∃ notices', (settle config source (ask config a.known source).1 :
        Run Analysis (AnalysisError ε) _) ⟨(ask config a.known source).2, notices⟩ = _ := settle_eq_judge source _ _
    rw [classesOf_cons, Run.bind_ok houtcome, answers, verdict]
    cases hjudge : (judge config source (ask config a.known source).1 : Except (AnalysisError ε) _) with
    | error error =>
      rw [hjudge] at hsettle
      exact ⟨_, Run.bind_error hsettle, fun _ h => by cases h⟩
    | ok found =>
      rw [hjudge] at hsettle
      obtain ⟨a', hrest, hknown⟩ := ih ⟨(ask config a.known source).2, notices'⟩
      rw [Run.bind_ok hsettle, ok_bind]
      cases hverdict : (verdict config (answers config rest (ask config a.known source).2) :
          Except (AnalysisError ε) _) with
      | error error =>
        rw [hverdict] at hrest
        exact ⟨a', Run.bind_error hrest, fun _ h => by cases h⟩
      | ok others =>
        rw [hverdict] at hrest hknown
        exact ⟨a', Run.bind_ok hrest, fun _ _ => hknown others rfl⟩

theorem addAll_eq (m : Model) (cs : List ClassRecord) (a : Analysis) :
    ∃ notices, (addAll m cs : Run Analysis ε Model) a = (.ok (m.addEach cs), ⟨a.known, notices⟩) := by
  induction cs generalizing m a with
  | nil => exact ⟨a.notices, rfl⟩
  | cons c cs ih =>
    have hcons : m.addEach (c :: cs) = (m.add c).1.addEach cs := rfl
    rw [addAll, hcons]
    obtain ⟨m', dropped⟩ := m.add c
    cases dropped with
    | none => exact ih m' a
    | some d => exact ih m' ⟨a.known, _ :: a.notices⟩

/-- The model of files that can be read is made of what the settings make of the answers for all their sources. -/
theorem addFiles_eq_verdict {files : List String}
    (hfiles : ∀ file ∈ files, Source.load place file = .ok (sourcesIn place file)) (m : Model) (a : Analysis) :
    ∃ a', (addFiles config false place m files : Run Analysis (AnalysisError ε) Model) a =
        ((verdict config (answers config (files.flatMap (sourcesIn place)) a.known)).map m.addEach, a') ∧
      ∀ records, (verdict config (answers config (files.flatMap (sourcesIn place)) a.known) :
        Except (AnalysisError ε) _) = .ok records →
          a'.known = knownAfter config (files.flatMap (sourcesIn place)) a.known := by
  induction files generalizing m a with
  | nil => exact ⟨a, rfl, fun _ _ => rfl⟩
  | cons file files ih =>
    have hrest := ih fun f hf => hfiles f (by simp [hf])
    rw [addFiles, hfiles file (by simp), List.flatMap_cons, answers_append, knownAfter_append, verdict_append]
    obtain ⟨a₁, hclasses, hknown₁⟩ : ∃ a₁, (classesOf config false (sourcesIn place file) :
        Run Analysis (AnalysisError ε) _) a = _ ∧ _ := classesOf_eq_verdict (sourcesIn place file) a
    cases hverdict₁ : (verdict config (answers config (sourcesIn place file) a.known) :
        Except (AnalysisError ε) _) with
    | error error =>
      rw [hverdict₁] at hclasses
      exact ⟨a₁, Run.bind_error hclasses, fun _ h => by cases h⟩
    | ok records =>
      rw [hverdict₁] at hclasses hknown₁
      obtain ⟨notices, hadd⟩ := addAll_eq (ε := AnalysisError ε) m records a₁
      obtain ⟨a', hfiles', hknown⟩ := hrest (m.addEach records) ⟨a₁.known, notices⟩
      rw [hknown₁ records rfl] at hadd hfiles' hknown
      refine ⟨a', (Run.bind_ok hclasses).trans ((Run.bind_ok hadd).trans (hfiles'.trans ?_)), fun all hall => ?_⟩
      · have happend (others : List ClassRecord) : (m.addEach records).addEach others = m.addEach (records ++ others) :=
          List.foldl_append.symm
        rw [ok_bind]
        cases (verdict config (answers config (files.flatMap (sourcesIn place))
          (knownAfter config (sourcesIn place file) a.known)) : Except (AnalysisError ε) _) with
        | error error => rfl
        | ok others => exact congrArg (fun m => (Except.ok m, a')) (happend others)
      · rw [ok_bind] at hall
        obtain ⟨others, hothers, -⟩ := bind_eq_ok_iff.mp hall
        exact hknown others hothers

/-- Files that can all be read. -/
def Readable (place : Workplace) (files : List String) : Prop :=
  ∀ file ∈ files, Source.load place file = .ok (sourcesIn place file)

/-- The computation gives this model, and these classes are known afterwards. -/
def Ends (x : Run Analysis (AnalysisError ε) Model) (a : Analysis) (m : Model) (known : List (UInt64 × Extracted)) :
    Prop :=
  ∃ a', x a = (.ok m, a') ∧ a'.known = known

theorem modelOf_eq_verdict {locations files : List String} (hlocated : filesOf config place locations = .ok files)
    (hreadable : Readable place files) (a : Analysis) :
    match (verdict config (answers config (files.flatMap (sourcesIn place)) a.known) : Except (AnalysisError ε) _) with
    | .ok records => Ends (modelOf config false place locations : Run Analysis (AnalysisError ε) Model) a
      (Model.empty.addEach records) (knownAfter config (files.flatMap (sourcesIn place)) a.known)
    | .error error => ((modelOf config false place locations : Run Analysis (AnalysisError ε) Model) a).1 =
      .error error := by
  obtain ⟨a', hadd, hknown⟩ := addFiles_eq_verdict (ε := ε) hreadable Model.empty a
  have hmodel : (modelOf config false place locations : Run Analysis (AnalysisError ε) Model) = (do
      let m ← addFiles config false place Model.empty files
      notify (.completed files.length m.classes.length)
      return m) := by
    rw [modelOf, hlocated]
  rw [hmodel]
  cases hverdict : (verdict config (answers config (files.flatMap (sourcesIn place)) a.known) :
      Except (AnalysisError ε) _) with
  | error error =>
    rw [hverdict] at hadd
    rw [Run.bind_error hadd]
  | ok records =>
    rw [hverdict] at hadd hknown
    exact ⟨_, Run.bind_ok hadd, hknown records rfl⟩

/-- As long as no two byte strings met have one fingerprint, a source fails just if its bytes do. -/
theorem answers_eq_map {seen : Set Bytes} (hinj : Set.InjOn fingerprint seen) {sources : List Source}
    (hsources : ∀ source ∈ sources, source.data ∈ seen) (ha : a.Remembers config seen) :
    answers config sources a.known = sources.map fun source => (source, recordOf config source) := by
  induction sources generalizing a with
  | nil => rfl
  | cons source rest ih =>
    obtain ⟨a', hclass, ha'⟩ := classOf_yields hinj (hsources source (by simp)) a ha
    obtain ⟨notices, hask⟩ : ∃ notices, classOf config source a = _ := classOf_eq_ask source a
    obtain ⟨hanswer, rfl⟩ := Prod.mk.inj (hask.symm.trans hclass)
    rw [answers, hanswer, List.map_cons]
    exact congrArg _ (ih (fun s hs => hsources s (by simp [hs])) ha')

theorem isOk_recordOf (source : Source) : (recordOf config source).isOk = (extract config source.data).isOk := by
  rw [recordOf]
  cases extract config source.data <;> rfl

theorem survivors_eq_filter {seen : Set Bytes} (hinj : Set.InjOn fingerprint seen) {sources : List Source}
    (hsources : ∀ source ∈ sources, source.data ∈ seen) (ha : a.Remembers config seen) :
    survivors (answers config sources a.known) = sources.filter fun source => (extract config source.data).isOk := by
  rw [survivors, answers_eq_map hinj hsources ha, List.filter_map, List.map_map]
  simp only [Function.comp_def, isOk_recordOf, List.map_id']

end Analysis

namespace Job

open Analysis

variable {ε : Type} {config : Config} {seen : Set Bytes} {job job' : Job} {a a' : Analysis}

/-- If the settings are strict, no step gets past a source that fails. -/
theorem mem_rest_of_advance (hstrict : config.strict = true) (hinj : Set.InjOn fingerprint seen)
    (hrest : ∀ source ∈ job.rest, source.data ∈ seen) (ha : a.Remembers config seen)
    (h : (job.advance config : Run Analysis (AnalysisError ε) Job) a = (.ok job', a')) {source : Source}
    (hsource : source ∈ job.rest) (hfails : (extract config source.data).isOk = false) : source ∈ job'.rest := by
  obtain ⟨file, pending, missed, found⟩ := job
  match missed, pending with
  | some next, pending =>
    obtain ⟨outcome, a₁, hlearn, h⟩ := Run.bind_eq_ok h
    obtain ⟨more, a₂, hsettle, h⟩ := Run.bind_eq_ok h
    cases h
    have houtcome : outcome = recordOf config next := by
      rw [outcomeOf] at hlearn
      rw [← learn_fst (a := a)]
      exact (Except.ok.inj (congrArg Prod.fst hlearn)).symm
    by_cases heq : source = next
    · subst heq
      rw [← isOk_recordOf, ← houtcome] at hfails
      cases outcome with
      | ok c => simp [Except.isOk, Except.toBool] at hfails
      | error error =>
        rw [settle, hstrict] at hsettle
        cases hsettle
    · simpa [rest, heq] using hsource
  | none, next :: pending =>
    obtain ⟨c, a₁, hlook, h⟩ := Run.bind_eq_ok h
    cases c with
    | none =>
      cases h
      exact hsource
    | some c =>
      cases h
      have hknown : (a.known.lookup (fingerprint next.data)).map next.record = some c :=
        Except.ok.inj (congrArg Prod.fst ((look_apply next a).symm.trans hlook))
      obtain ⟨e, he, -⟩ := Option.map_eq_some_iff.mp hknown
      by_cases heq : source = next
      · subst heq
        rw [ha.extract_eq hinj (hrest source hsource) he] at hfails
        simp [Except.isOk, Except.toBool] at hfails
      · simpa [rest, heq] using hsource
  | none, [] =>
    cases h
    exact hsource

end Job

namespace Batch

open Analysis

variable {ε : Type} {config : Config} {place : Workplace} {workers : Nat} {seen : Set Bytes} {b b' : Batch ε}

/-- Something has failed, or a source that fails is still to come. -/
def Doomed (config : Config) (place : Workplace) (b : Batch ε) : Prop :=
  b.failure ≠ none ∨ ∃ source : Source, (extract config source.data).isOk = false ∧
    ((∃ file ∈ b.waiting, source ∈ sourcesIn place file) ∨ ∃ job ∈ b.jobs, source ∈ job.rest)

theorem Doomed.step (h : b.Doomed config place) (hstrict : config.strict = true) (hinj : Set.InjOn fingerprint seen)
    (hconfined : b.Confined config place seen) (hstep : Step config place workers b b') : b'.Doomed config place := by
  have hor (failure : Option (AnalysisError ε)) (error : AnalysisError ε) : failure.or (some error) ≠ none := by
    cases failure <;> simp
  cases hstep with
  | @take file waiting sources hwaiting hfree hload =>
    have hsources : sourcesIn place file = sources := by simp [sourcesIn, hload, Except.toOption]
    obtain hfailure | ⟨source, hfails, ⟨f, hf, hsource⟩ | ⟨job, hjob, hsource⟩⟩ := h
    · exact .inl hfailure
    · rw [hwaiting] at hf
      obtain rfl | hf := List.mem_cons.mp hf
      · exact .inr ⟨source, hfails, .inr ⟨_, List.mem_cons_self, by simpa [Job.ofSources, Job.rest, ← hsources]⟩⟩
      · exact .inr ⟨source, hfails, .inl ⟨f, hf, hsource⟩⟩
    · exact .inr ⟨source, hfails, .inr ⟨job, List.mem_cons_of_mem _ hjob, hsource⟩⟩
  | refuse hwaiting hfree hload => exact .inl (hor _ _)
  | @advance before after job job' a hjobs hdone hrun =>
    obtain hfailure | ⟨source, hfails, hwait | ⟨j, hj, hsource⟩⟩ := h
    · exact .inl hfailure
    · exact .inr ⟨source, hfails, .inl hwait⟩
    · rw [hjobs] at hj
      obtain hj | rfl | hj : j ∈ before ∨ j = job ∨ j ∈ after := by simpa using hj
      · exact .inr ⟨source, hfails, .inr ⟨j, by simp [hj], hsource⟩⟩
      · have hrest := hconfined.jobs j (by simp [hjobs])
        have hmem := Job.mem_rest_of_advance hstrict hinj hrest hconfined.remembers hrun hsource hfails
        exact .inr ⟨source, hfails, .inr ⟨job', by simp, hmem⟩⟩
      · exact .inr ⟨source, hfails, .inr ⟨j, by simp [hj], hsource⟩⟩
  | abandon hjobs hrun => exact .inl (hor _ _)
  | @merge before after job m a hjobs hdone hrun =>
    obtain hfailure | ⟨source, hfails, hwait | ⟨j, hj, hsource⟩⟩ := h
    · exact .inl hfailure
    · exact .inr ⟨source, hfails, .inl hwait⟩
    · rw [hjobs] at hj
      obtain hj | rfl | hj : j ∈ before ∨ j = job ∨ j ∈ after := by simpa using hj
      · exact .inr ⟨source, hfails, .inr ⟨j, by simp [hj], hsource⟩⟩
      · simp [Job.rest, hdone.1, hdone.2] at hsource
      · exact .inr ⟨source, hfails, .inr ⟨j, by simp [hj], hsource⟩⟩

theorem Doomed.run (h : b.Doomed config place) (hstrict : config.strict = true) (hinj : Set.InjOn fingerprint seen)
    (hconfined : b.Confined config place seen) (hrun : Relation.ReflTransGen (Step config place workers) b b') :
    b'.Doomed config place := by
  induction hrun with
  | refl => exact h
  | tail hsteps hstep ih => exact ih.step hstrict hinj (hconfined.run hsteps) hstep

theorem Doomed.outcome (h : b.Doomed config place) (hb : b.Finished) : ∃ error, b.outcome = .error error := by
  obtain hfailure | ⟨source, -, ⟨file, hf, -⟩ | ⟨job, hjob, -⟩⟩ := h
  · obtain ⟨error, herror⟩ := Option.ne_none_iff_exists'.mp hfailure
    exact ⟨error, by rw [Batch.outcome, herror]⟩
  · simp [hb.1] at hf
  · simp [hb.2] at hjob

/-- Whatever has failed, as long as something is left to do, some worker can do it. -/
theorem exists_step (hworkers : 0 < workers) (hb : ¬ b.Finished) : ∃ b', Step config place workers b b' := by
  cases hjobs : b.jobs with
  | nil =>
    cases hwaiting : b.waiting with
    | nil => exact absurd ⟨hwaiting, hjobs⟩ hb
    | cons file waiting =>
      have hfree : b.jobs.length < workers := by simpa [hjobs] using hworkers
      cases hload : Source.load place file with
      | ok sources => exact ⟨_, .take hwaiting hfree hload⟩
      | error error => exact ⟨_, .refuse hwaiting hfree hload⟩
  | cons job jobs =>
    replace hjobs : b.jobs = [] ++ job :: jobs := hjobs
    by_cases hdone : job.Done
    · obtain ⟨notices, hrun⟩ := addAll_eq (ε := AnalysisError ε) b.model job.found b.analysis
      exact ⟨_, .merge hjobs hdone hrun⟩
    · rcases hrun : job.advance config b.analysis with ⟨error | job', a⟩
      · exact ⟨_, .abandon hjobs hrun⟩
      · exact ⟨_, .advance hjobs hdone hrun⟩

end Batch

namespace Analysis

variable {ε : Type} {config : Config} {place : Workplace} {locations files : List String} {start : Analysis} {m : Model}
  {known : List (UInt64 × Extracted)} {seen : Set Bytes} {sources : List Source}

/-- The files at the locations can be listed and read, and these are their sources. -/
def Offers (config : Config) (place : Workplace) (locations : List String) (sources : List Source) : Prop :=
  ∃ files, filesOf config place locations = .ok files ∧ Readable place files ∧ files.flatMap (sourcesIn place) = sources

theorem ask_strict (strict : Bool) (known : List (UInt64 × Extracted)) (source : Source) :
    ask { config with strict } known source = ask config known source := rfl

theorem answers_strict (strict : Bool) (sources : List Source) (known : List (UInt64 × Extracted)) :
    answers { config with strict } sources known = answers config sources known := by
  induction sources generalizing known with
  | nil => rfl
  | cons source rest ih => rw [answers, answers, ask_strict, ih]

theorem knownAfter_strict (strict : Bool) (sources : List Source) (known : List (UInt64 × Extracted)) :
    knownAfter { config with strict } sources known = knownAfter config sources known := rfl

/-- If the settings are lenient or no source fails, the model is that of the classes that were found. -/
theorem Offers.ends (h : Offers config place locations sources) (start : Analysis) {strict : Bool}
    (hpasses : strict = true → failure? (answers config sources start.known) = none) :
    Ends (modelOf { config with strict } false place locations : Run Analysis (AnalysisError ε) Model) start
      (Model.empty.addEach (found (answers config sources start.known))) (knownAfter config sources start.known) := by
  obtain ⟨files, hlocated, hreadable, rfl⟩ := h
  have hlocated' : filesOf { config with strict } place locations = .ok files := hlocated
  have hmodel := modelOf_eq_verdict (ε := ε) hlocated' hreadable start
  rw [answers_strict, knownAfter_strict] at hmodel
  cases strict with
  | false => rwa [verdict_of_lenient rfl] at hmodel
  | true => rwa [verdict_of_strict rfl, hpasses rfl] at hmodel

theorem Offers.fails (h : Offers config place locations sources) (start : Analysis) {source : Source}
    {error : ExtractError Empty} (hfails : failure? (answers config sources start.known) = some (source, error)) :
    ((modelOf { config with strict := true } false place locations : Run Analysis (AnalysisError ε) Model) start).1 =
      .error (.malformed source.name source.location error) := by
  obtain ⟨files, hlocated, hreadable, rfl⟩ := h
  have hlocated' : filesOf { config with strict := true } place locations = .ok files := hlocated
  have hmodel := modelOf_eq_verdict (ε := ε) hlocated' hreadable start
  rwa [answers_strict, verdict_of_strict rfl, hfails] at hmodel

/-- Where no file ends the analysis, workers come to the model that one worker alone makes. -/
theorem Ends.schedule {workers : Nat} {b : Batch ε}
    (h : Ends (modelOf config false place locations : Run Analysis (AnalysisError ε) Model) start m known)
    (hlocated : filesOf config place locations = .ok files)
    (hfiles : ∀ file ∈ files, FilePasses config place file ∧ Covers place seen file)
    (hinj : Set.InjOn fingerprint seen) (hstart : start.Remembers config seen)
    (hrun : Relation.ReflTransGen (Batch.Step config place workers) (.start start files) b) (hb : b.Finished) :
    b.outcome = .ok m := by
  obtain ⟨m', hm', hyields⟩ := modelOf_holds (ε := ε) hinj hlocated hfiles
  obtain ⟨a, hmodel, -⟩ := hyields start hstart
  obtain ⟨a', halone, -⟩ := h
  cases halone.symm.trans hmodel
  have hinv := (Batch.inv_start (ε := ε) hstart files).run hinj hfiles hrun
  rw [Batch.outcome, hinv.sound, (hinv.holds_of_finished hb).unique hm']

theorem Offers.covers (h : Offers config place locations sources)
    (hlocated : filesOf config place locations = .ok files) (hsources : ∀ source ∈ sources, source.data ∈ seen) :
    ∀ file ∈ files, Covers place seen file := by
  obtain ⟨files', hlocated', -, rfl⟩ := h
  cases hlocated.symm.trans hlocated'
  exact fun file hf source hs => hsources source (List.mem_flatMap.mpr ⟨file, hf, hs⟩)

theorem Offers.passes (h : Offers config place locations sources)
    (hlocated : filesOf config place locations = .ok files)
    (hgood : config.strict = true → ∀ source ∈ sources, (extract config source.data).isOk = true) :
    ∀ file ∈ files, FilePasses config place file := by
  obtain ⟨files', hlocated', hreadable, rfl⟩ := h
  cases hlocated.symm.trans hlocated'
  refine fun file hf => ⟨hreadable file hf, fun source hs hstrict => ?_⟩
  have hok := hgood hstrict source (List.mem_flatMap.mpr ⟨file, hf, hs⟩)
  cases hextract : extract config source.data with
  | ok e => exact ⟨e, rfl⟩
  | error error => simp [hextract, Except.isOk, Except.toBool] at hok

theorem Offers.doomed (h : Offers config place locations sources)
    (hlocated : filesOf config place locations = .ok files) {source : Source} (hsource : source ∈ sources)
    (hfails : (extract config source.data).isOk = false) :
    (Batch.start start files : Batch ε).Doomed config place := by
  obtain ⟨files', hlocated', -, rfl⟩ := h
  cases hlocated.symm.trans hlocated'
  obtain ⟨file, hf, hs⟩ := List.mem_flatMap.mp hsource
  exact .inr ⟨source, hfails, .inl ⟨file, hf, hs⟩⟩

/-- The model is the one without the sources that fail, and so is what is known. -/
theorem Offers.ends_survivors (start : Analysis)
    (h : Offers config place locations (survivors (answers config sources start.known))) (strict : Bool) :
    Ends (modelOf { config with strict } false place locations : Run Analysis (AnalysisError ε) Model) start
      (Model.empty.addEach (found (answers config sources start.known))) (knownAfter config sources start.known) := by
  obtain ⟨hanswers, hknown⟩ : answers config (survivors (answers config sources start.known)) start.known = _ ∧ _ :=
    answers_survivors sources start.known
  have hnone : failure? (answers config (survivors (answers config sources start.known)) start.known) = none := by
    rw [hanswers, failure?_filter]
  have hends := h.ends (ε := ε) start fun (_ : strict = true) => hnone
  rwa [hanswers, hknown, found_filter] at hends

/-- In whatever order the workers take their steps, they end as one worker alone does. -/
theorem Offers.outcome_of_schedule (h : Offers config place locations sources)
    (hlocated : filesOf config place locations = .ok files) (hinj : Set.InjOn fingerprint seen)
    (hstart : start.Remembers config seen) (hsources : ∀ source ∈ sources, source.data ∈ seen) {strict : Bool}
    {workers : Nat} {b : Batch ε}
    (hrun : Relation.ReflTransGen (Batch.Step { config with strict } place workers) (.start start files) b)
    (hb : b.Finished) :
    if strict = true ∧ survivors (answers config sources start.known) ≠ sources then
      ∃ error, b.outcome = .error error
    else b.outcome = .ok (Model.empty.addEach (found (answers config sources start.known))) := by
  have h' : Offers { config with strict } place locations sources := h
  have hfilter := survivors_eq_filter hinj hsources hstart
  by_cases hbad : strict = true ∧ survivors (answers config sources start.known) ≠ sources
  · rw [if_pos hbad]
    obtain ⟨hstrict, hne⟩ := hbad
    obtain ⟨source, hsource, hfails⟩ : ∃ source ∈ sources, (extract config source.data).isOk = false := by
      rw [hfilter, ne_eq, List.filter_eq_self] at hne
      simpa using hne
    have hdoomed : (Batch.start start files : Batch ε).Doomed { config with strict } place :=
      h'.doomed hlocated hsource hfails
    have hconfined : (Batch.start start files : Batch ε).Confined { config with strict } place seen :=
      ⟨hstart, h.covers hlocated hsources, nofun⟩
    exact (hdoomed.run hstrict hinj hconfined hrun).outcome hb
  · rw [if_neg hbad]
    have hall (hstrict : strict = true) : survivors (answers config sources start.known) = sources :=
      not_not.mp fun hne => hbad ⟨hstrict, hne⟩
    have hends := h.ends (ε := ε) start fun hstrict => failure?_eq_none_iff.mpr (hall hstrict)
    refine hends.schedule hlocated (fun file hf => ⟨h'.passes hlocated ?_ file hf, h.covers hlocated hsources file hf⟩)
      hinj hstart hrun hb
    intro hstrict
    have hself := hall hstrict
    rw [hfilter] at hself
    exact List.filter_eq_self.mp hself

/-- Strict and lenient analyses of files that can be read agree. A lenient one gives the model, and leaves the classes
known, that it would give without the sources that fail, and so would a strict one. A strict one gives that model if
no source fails, and otherwise none. If no two of the byte strings met have one fingerprint, a source fails just if its
bytes do, and all this holds for any number of workers and every schedule. -/
theorem strict_and_lenient_agree (h : Offers config place locations sources) (start : Analysis) :
    ∃ m known,
      Ends (modelOf { config with strict := false } false place locations : Run Analysis (AnalysisError ε) Model)
        start m known ∧
      (∀ place' locations', Offers config place' locations' (survivors (answers config sources start.known)) →
        ∀ strict, Ends (modelOf { config with strict } false place' locations' : Run Analysis (AnalysisError ε) Model)
          start m known) ∧
      (survivors (answers config sources start.known) = sources →
        Ends (modelOf { config with strict := true } false place locations : Run Analysis (AnalysisError ε) Model)
          start m known) ∧
      (survivors (answers config sources start.known) ≠ sources →
        ∃ source error, failure? (answers config sources start.known) = some (source, error) ∧
          ((modelOf { config with strict := true } false place locations : Run Analysis (AnalysisError ε) Model)
            start).1 = .error (.malformed source.name source.location error)) ∧
      ∀ seen, Set.InjOn fingerprint seen → start.Remembers config seen → (∀ source ∈ sources, source.data ∈ seen) →
        survivors (answers config sources start.known) =
          sources.filter (fun source => (extract config source.data).isOk) ∧
        ∀ files, filesOf config place locations = .ok files → ∀ workers, 0 < workers → ∀ strict (b : Batch ε),
          Relation.ReflTransGen (Batch.Step { config with strict } place workers) (.start start files) b →
          (∃ b', b.Step { config with strict } place workers b') ∨
            b.Finished ∧
              if strict = true ∧ survivors (answers config sources start.known) ≠ sources then
                ∃ error, b.outcome = .error error
              else b.outcome = .ok m := by
  refine ⟨_, _, h.ends start nofun, fun place' locations' hpruned => hpruned.ends_survivors start,
    fun hall => h.ends start fun _ => failure?_eq_none_iff.mpr hall, fun hsome => ?_,
    fun seen hinj hstart hsources => ⟨survivors_eq_filter hinj hsources hstart, ?_⟩⟩
  · rw [ne_eq, ← failure?_eq_none_iff] at hsome
    obtain ⟨⟨source, error⟩, hfailure⟩ := Option.ne_none_iff_exists'.mp hsome
    exact ⟨source, error, hfailure, h.fails start hfailure⟩
  · intro files hlocated workers hworkers strict b hrun
    by_cases hb : b.Finished
    · exact .inr ⟨hb, h.outcome_of_schedule hlocated hinj hstart hsources hrun hb⟩
    · exact .inl (Batch.exists_step hworkers hb)

/-- A class and beside it one that fails at its last call. -/
def mixed : Workplace :=
  ⟨"/", .directory [("a.class", .file ClassFile.callerBytes), ("b.class", .file strayBytes)]⟩

/-- The same without the class that fails. -/
def pruned : Workplace := ⟨"/", .directory [("a.class", .file ClassFile.callerBytes)]⟩

def callerSource : Source := ⟨"a.class", "file://localhost/a.class", ClassFile.callerBytes⟩

def straySource : Source := ⟨"b.class", "file://localhost/b.class", strayBytes⟩

theorem mixed_offers : Offers {} mixed ["file:///a.class", "file:///b.class"] [callerSource, straySource] := by
  have hfound : (["file:///a.class", "file:///b.class"].mapM (filesAt {} mixed)).toOption =
      some [["file://localhost/a.class"], ["file://localhost/b.class"]] := by decide +kernel
  refine ⟨_, filesOf_of_sorted hfound (by decide +kernel), ?_, by decide +kernel⟩
  unfold Readable
  decide +kernel

theorem pruned_offers : Offers {} pruned ["file:///a.class"] [callerSource] := by
  have hfound : (["file:///a.class"].mapM (filesAt {} pruned)).toOption = some [["file://localhost/a.class"]] := by
    decide +kernel
  refine ⟨_, filesOf_of_sorted hfound (by decide +kernel), ?_, by decide +kernel⟩
  unfold Readable
  decide +kernel

/-- The class that fails at its last call leaves nothing to a lenient analysis, and a strict one names it. -/
theorem mixed_agree :
    ∃ m : Model, ∃ error,
      ((modelOf { strict := false } false mixed ["file:///a.class", "file:///b.class"] :
        Run Analysis (AnalysisError Empty) Model) {}).1 = .ok m ∧
      ((modelOf { strict := true } false pruned ["file:///a.class"] : Run Analysis (AnalysisError Empty) Model) {}).1 =
        .ok m ∧
      ((modelOf { strict := true } false mixed ["file:///a.class", "file:///b.class"] :
        Run Analysis (AnalysisError Empty) Model) {}).1 =
          .error (.malformed "b.class" "file://localhost/b.class" error) := by
  obtain ⟨m, known, ⟨a, hlenient, -⟩, hpruned, -, hstrict, -⟩ := strict_and_lenient_agree (ε := Empty) mixed_offers {}
  have hsurvivors : survivors (answers {} [callerSource, straySource] ({} : Analysis).known) = [callerSource] := by
    decide +kernel
  have hfailure : (failure? (answers {} [callerSource, straySource] ({} : Analysis).known)).map (·.1) =
      some straySource := by decide +kernel
  obtain ⟨a', hends, -⟩ := hpruned pruned ["file:///a.class"] (hsurvivors ▸ pruned_offers) true
  obtain ⟨source, error, hsource, herror⟩ := hstrict (by rw [hsurvivors]; simp)
  rw [hsource] at hfailure
  obtain rfl : source = straySource := Option.some.inj hfailure
  exact ⟨m, error, congrArg Prod.fst hlenient, congrArg Prod.fst hends, herror⟩

end Analysis
end Linkage
