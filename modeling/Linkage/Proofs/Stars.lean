import Mathlib.Data.List.TakeWhile
import Linkage.Files.Glob
import Linkage.Proofs.ByteOrder
import Linkage.Proofs.Run

/-!
Patterns in which only stars have a meaning. Matching works on bytes and takes the first place where what stands between
two stars is found. It finds exactly the names that come from the pattern by putting characters in the place of stars.
-/
namespace Linkage

/-! Characters within bytes. -/

theorem encodeChar_append_inj {c d : Char} {x y : Bytes}
    (h : String.utf8EncodeChar c ++ x = String.utf8EncodeChar d ++ y) : c = d ∧ x = y := by
  have hcd : ¬ c < d := fun hlt => List.lt_irrefl _ (h ▸ encodeChar_append_lt hlt x y)
  have hdc : ¬ d < c := fun hlt => List.lt_irrefl _ (h ▸ encodeChar_append_lt hlt y x)
  obtain rfl : c = d := Char.le_antisymm (Char.not_lt.mp hdc) (Char.not_lt.mp hcd)
  exact ⟨rfl, List.append_cancel_left h⟩

theorem isFirstByte_iff {c : Char} {x y : Bytes} {b : UInt8} (h : String.utf8EncodeChar c = x ++ b :: y) :
    b.IsUTF8FirstByte ↔ x = [] := by
  have hlt : x.length < (String.utf8EncodeChar c).length := by simp [h]
  have hb : (String.utf8EncodeChar c)[x.length] = b := by simp [h]
  rw [← hb, UInt8.isUTF8FirstByte_getElem_utf8EncodeChar, List.length_eq_zero_iff]

/-- Where the bytes of a character are found in a text, the text has that character. -/
theorem exists_of_encodeChar_infix {c : Char} {cs : List Char} {x y : Bytes}
    (h : x ++ (String.utf8EncodeChar c ++ y) = cs.flatMap String.utf8EncodeChar) :
    ∃ before after, cs = before ++ c :: after ∧ y = after.flatMap String.utf8EncodeChar ∧ (x = [] → before = []) := by
  induction cs generalizing x with
  | nil => simp [String.utf8EncodeChar_ne_nil] at h
  | cons d cs ih =>
    rw [List.flatMap_cons] at h
    by_cases hx : x = []
    · subst hx
      obtain ⟨rfl, rfl⟩ := encodeChar_append_inj h
      exact ⟨[], cs, rfl, rfl, fun _ => rfl⟩
    have hlater {z : Bytes} (hz : z ++ (String.utf8EncodeChar c ++ y) = cs.flatMap String.utf8EncodeChar) :
        ∃ before after, d :: cs = before ++ c :: after ∧ y = after.flatMap String.utf8EncodeChar ∧
          (x = [] → before = []) := by
      obtain ⟨before, after, rfl, hafter, -⟩ := ih hz
      exact ⟨d :: before, after, rfl, hafter, fun h => absurd h hx⟩
    obtain ⟨z, hd, hz⟩ | ⟨z, -, hz⟩ := List.append_eq_append_iff.mp h
    · cases z with
      | nil => exact hlater (z := []) hz
      | cons b z =>
        -- a character does not start within another one
        obtain ⟨b', bs, hc⟩ := List.exists_cons_of_ne_nil (String.utf8EncodeChar_ne_nil (c := c))
        obtain rfl : b' = b := by
          rw [hc] at hz
          exact (List.cons.inj hz).1
        exact absurd ((isFirstByte_iff hd).mp ((isFirstByte_iff (x := []) hc).mpr rfl)) hx
    · exact hlater hz.symm

namespace Glob

/-- The name comes from the pattern by putting any characters in the place of each star. -/
inductive Covers : List Char → List Char → Prop
  | nil : Covers [] []
  | char {c : Char} {pattern name : List Char} (hc : c ≠ '*') (h : Covers pattern name) :
    Covers (c :: pattern) (c :: name)
  | star {pattern name : List Char} (any : List Char) (h : Covers pattern name) : Covers ('*' :: pattern) (any ++ name)

/-- The same for the bytes of a name. -/
inductive CoversBytes : List Char → Bytes → Prop
  | nil : CoversBytes [] []
  | char {c : Char} {pattern : List Char} {name : Bytes} (hc : c ≠ '*') (h : CoversBytes pattern name) :
    CoversBytes (c :: pattern) (String.utf8EncodeChar c ++ name)
  | star {pattern : List Char} {name : Bytes} (any : Bytes) (h : CoversBytes pattern name) :
    CoversBytes ('*' :: pattern) (any ++ name)

theorem Covers.coversBytes {pattern name : List Char} (h : Covers pattern name) :
    CoversBytes pattern (name.flatMap String.utf8EncodeChar) := by
  induction h with
  | nil => exact .nil
  | char hc _ ih => exact .char hc ih
  | star any _ ih =>
    rw [List.flatMap_append]
    exact .star _ ih

/-- What a pattern covers at the end of a text it also covers from the start of a character on, and from the start of the
text on if that is where it stood. -/
theorem CoversBytes.exists_covers {pattern : List Char} {name x : Bytes} {cs : List Char} (h : CoversBytes pattern name)
    (hcs : x ++ name = cs.flatMap String.utf8EncodeChar) :
    ∃ before after, cs = before ++ after ∧ Covers pattern after ∧ (x = [] → before = []) := by
  induction h generalizing x cs with
  | nil =>
    refine ⟨cs, [], by simp, .nil, fun hx => ?_⟩
    cases cs with
    | nil => rfl
    | cons c cs => simp [hx, String.utf8EncodeChar_ne_nil] at hcs
  | char hc _ ih =>
    obtain ⟨before, after, rfl, hname, hx⟩ := exists_of_encodeChar_infix hcs
    obtain ⟨_, after', rfl, hcovers, hnone⟩ := ih (x := []) hname
    rw [hnone rfl, List.nil_append] at *
    exact ⟨before, _, rfl, .char hc hcovers, hx⟩
  | star any _ ih =>
    -- the bytes for the star may end within a character, but then the star can take it whole
    rw [← List.append_assoc] at hcs
    obtain ⟨before, after, rfl, hcovers, -⟩ := ih hcs
    exact ⟨[], _, rfl, .star before hcovers, fun _ => rfl⟩

theorem coversBytes_iff {pattern name : List Char} :
    CoversBytes pattern (name.flatMap String.utf8EncodeChar) ↔ Covers pattern name := by
  refine ⟨fun h => ?_, Covers.coversBytes⟩
  obtain ⟨before, after, rfl, hcovers, hnone⟩ := h.exists_covers (x := []) rfl
  rwa [hnone rfl]

/-! Matching. -/

/-- The character stands for itself in a pattern. -/
def Plain (c : Char) : Prop := c ≠ '*' ∧ c ≠ '?' ∧ c ≠ '[' ∧ c ≠ '\\'

/-- The character is a star or stands for itself. -/
def Simple (c : Char) : Prop := c ≠ '?' ∧ c ≠ '[' ∧ c ≠ '\\'

theorem chunk_simple {pattern : List Char} (h : ∀ c ∈ pattern, Simple c) :
    chunk false pattern = (pattern.takeWhile (· != '*'), pattern.dropWhile (· != '*')) := by
  induction pattern with
  | nil => rfl
  | cons c rest ih =>
    obtain ⟨⟨hmark, hopen, hback⟩, hrest⟩ := List.forall_mem_cons.mp h
    by_cases hstar : c = '*'
    · subst hstar
      rfl
    · have hstep : chunk false (c :: rest) = (c :: (chunk false rest).1, (chunk false rest).2) := by
        rw [chunk] <;> simp_all
      rw [hstep, ih hrest]
      simp [hstar]

theorem afterChar?_eq_some_iff {c : Char} {name left : Bytes} :
    afterChar? c name = some left ↔ name = String.utf8EncodeChar c ++ left := by
  have hbytes : Text.encodeUtf8 c.toString = String.utf8EncodeChar c := by
    rw [show Text.encodeUtf8 c.toString = utf8Bytes c.toString from rfl, utf8Bytes_eq_flatMap]
    simp
  simp only [afterChar?, hbytes, List.isPrefixOf_iff_prefix, Option.ite_none_right_eq_some, Option.some_inj]
  constructor
  · rintro ⟨⟨rest, rfl⟩, rfl⟩
    simp
  · rintro rfl
    simp

theorem afterChar?_nil (c : Char) : afterChar? c [] = none := by
  rw [Option.eq_none_iff_forall_ne_some]
  intro left h
  have hnil := afterChar?_eq_some_iff.mp h
  simp [String.utf8EncodeChar_ne_nil] at hnil

theorem matchChunk_cons {c : Char} (hc : Plain c) (fuel : Nat) (part : List Char) (name : Option Bytes) :
    matchChunk (fuel + 1) (c :: part) name = matchChunk fuel part (name.bind (afterChar? c)) := by
  obtain ⟨hstar, hmark, hopen, hback⟩ := hc
  have hguard : ((name.bind fun bytes => if bytes.isEmpty ∧ !(c :: part).isEmpty then none else some bytes).bind
      (afterChar? c)) = name.bind (afterChar? c) := by
    cases name with
    | none => rfl
    | some bytes => cases bytes <;> simp [afterChar?_nil]
  rw [matchChunk, hguard] <;> simp_all

theorem matchChunk_plain {part : List Char} (h : ∀ c ∈ part, Plain c) {fuel : Nat} (hf : part.length < fuel)
    (name : Option Bytes) :
    ∃ r, matchChunk fuel part name = .ok r ∧
      ∀ left, r = some left ↔ name = some (part.flatMap String.utf8EncodeChar ++ left) := by
  induction part generalizing fuel name with
  | nil =>
    obtain ⟨fuel, rfl⟩ := Nat.exists_eq_succ_of_ne_zero (Nat.ne_of_gt hf)
    exact ⟨name, by cases name <;> simp [matchChunk, pure, Except.pure], by simp⟩
  | cons c part ih =>
    obtain ⟨fuel, rfl⟩ := Nat.exists_eq_succ_of_ne_zero (Nat.ne_of_gt (Nat.zero_lt_of_lt hf))
    obtain ⟨hc, hpart⟩ := List.forall_mem_cons.mp h
    obtain ⟨r, hr, hleft⟩ := ih hpart (Nat.lt_of_succ_lt_succ hf) (name.bind (afterChar? c))
    refine ⟨r, (matchChunk_cons hc fuel part name).trans hr, fun left => ?_⟩
    rw [hleft, Option.bind_eq_some_iff, List.flatMap_cons, List.append_assoc]
    simp [afterChar?_eq_some_iff]

theorem matchStart_plain {part : List Char} (h : ∀ c ∈ part, Plain c) (name : Bytes) :
    ∃ r, matchStart part name = .ok r ∧
      ∀ left, r = some left ↔ name = part.flatMap String.utf8EncodeChar ++ left := by
  obtain ⟨r, hr, hleft⟩ := matchChunk_plain h (Nat.lt_succ_self _) (some name)
  exact ⟨r, hr, fun left => (hleft left).trans Option.some_inj⟩

/-- What a search for a part behind the start of a name has to answer: what is left behind a place where the part stands,
and no more is left behind any other such place. -/
structure Finds (part : List Char) (isLast : Bool) (name : Bytes) (answer : Option Bytes) : Prop where
  sound : ∀ left, answer = some left → (isLast → left = []) ∧
    ∃ x, name = x ++ (part.flatMap String.utf8EncodeChar ++ left)
  complete : ∀ x left, x ≠ [] → name = x ++ (part.flatMap String.utf8EncodeChar ++ left) → (isLast → left = []) →
    ∃ found, answer = some found ∧ left <:+ found

theorem Finds.cons {part : List Char} {isLast : Bool} {rest : Bytes} {answer : Option Bytes}
    (h : Finds part isLast rest answer) (b : UInt8)
    (hnone : ∀ left, rest = part.flatMap String.utf8EncodeChar ++ left → ¬ (isLast → left = [])) :
    Finds part isLast (b :: rest) answer where
  sound left hl := by
    obtain ⟨hlast, x, rfl⟩ := h.sound left hl
    exact ⟨hlast, b :: x, rfl⟩
  complete x left hx hname hlast := by
    obtain ⟨b', x, rfl⟩ := List.exists_cons_of_ne_nil hx
    obtain ⟨-, hrest⟩ := List.cons.inj hname
    by_cases hx : x = []
    · subst hx
      exact absurd hlast (hnone left hrest)
    · exact h.complete x left hx hrest hlast

/-- No more is left behind the later one of two places. -/
theorem suffix_of_append_eq {x y part left other : Bytes} (h : x ++ (part ++ left) = y ++ (part ++ other))
    (hle : x.length ≤ y.length) : other <:+ left := by
  have hlen := congrArg List.length h
  simp only [List.length_append] at hlen
  have hleft : left <:+ x ++ (part ++ left) := (List.suffix_append ..).trans (List.suffix_append ..)
  have hother : other <:+ y ++ (part ++ other) := (List.suffix_append ..).trans (List.suffix_append ..)
  rw [h] at hleft
  exact List.suffix_of_suffix_length_le hother hleft (by omega)

theorem finds_here {part : List Char} {isLast : Bool} {left : Bytes} (b : UInt8) (hlast : isLast → left = []) :
    Finds part isLast (b :: (part.flatMap String.utf8EncodeChar ++ left)) (some left) where
  sound := by
    rintro _ ⟨⟩
    exact ⟨hlast, [b], rfl⟩
  complete x other hx hname _ :=
    ⟨left, rfl, suffix_of_append_eq (x := [b]) hname (List.length_pos_iff.mpr hx)⟩

theorem matchLater_cons {b : UInt8} (hb : b ≠ slash) (part : List Char) (isLast : Bool) (rest : Bytes) :
    matchLater part isLast (b :: rest) = matchStart part rest >>= fun
      | some left => if isLast && !left.isEmpty then matchLater part isLast rest else .ok (some left)
      | none => matchLater part isLast rest := by
  rw [matchLater, if_neg hb]
  rfl

theorem matchLater_plain {part : List Char} (h : ∀ c ∈ part, Plain c) (isLast : Bool) {name : Bytes}
    (hs : slash ∉ name) : ∃ r, matchLater part isLast name = .ok r ∧ Finds part isLast name r := by
  induction name with
  | nil => exact ⟨none, rfl, by simp, fun x left hx h => absurd (List.append_eq_nil_iff.mp h.symm).1 hx⟩
  | cons b rest ih =>
    rw [List.mem_cons, not_or] at hs
    obtain ⟨r, hr, hleft⟩ := matchStart_plain h rest
    obtain ⟨later, hlater, hfinds⟩ := ih hs.2
    rw [matchLater_cons (Ne.symm hs.1), hr, ok_bind]
    cases r with
    | none =>
      refine ⟨later, hlater, hfinds.cons b fun left hl => ?_⟩
      cases (hleft left).mpr hl
    | some first =>
      by_cases hskip : isLast && !first.isEmpty
      · refine ⟨later, (if_pos hskip).trans hlater, hfinds.cons b fun left hl hlast => ?_⟩
        obtain rfl : first = left := Option.some_inj.mp ((hleft left).mpr hl)
        simp_all
      · refine ⟨some first, if_neg hskip, ?_⟩
        rw [(hleft first).mp rfl]
        exact finds_here b (by simpa using hskip)

/-- A pattern has stars, a part without stars and a rest that is empty or starts with a star. -/
structure Parts (pattern part rest : List Char) : Prop where
  chunk : chunk false (pattern.dropWhile (· == '*')) = (part, rest)
  append : pattern.dropWhile (· == '*') = part ++ rest
  plain : ∀ c ∈ part, Plain c
  simple : ∀ c ∈ rest, Simple c
  star : rest ≠ [] → rest.head? = some '*'

theorem exists_parts {pattern : List Char} (h : ∀ c ∈ pattern, Simple c) : ∃ part rest, Parts pattern part rest := by
  have hmem {c : Char} (hc : c ∈ pattern.dropWhile (· == '*')) : Simple c := h c ((List.dropWhile_suffix _).subset hc)
  refine ⟨_, _, chunk_simple fun c => hmem, List.takeWhile_append_dropWhile.symm, ?_, ?_, ?_⟩
  · intro c hc
    exact ⟨by simpa using List.mem_takeWhile_imp hc, hmem ((List.takeWhile_prefix _).subset hc)⟩
  · exact fun c hc => hmem ((List.dropWhile_suffix _).subset hc)
  · intro hne
    have hhead := List.head_dropWhile_not (· != '*') hne
    rw [List.head?_eq_some_head hne]
    simpa using hhead

namespace Parts

variable {pattern part rest : List Char}

theorem rest_eq_nil (h : Parts pattern part rest) (hpart : part = []) : rest = [] := by
  by_contra hne
  have hrest : pattern.dropWhile (· == '*') = rest := by rw [h.append, hpart, List.nil_append]
  have hhead := List.head?_dropWhile_not (· == '*') pattern
  simp [hrest, h.star hne] at hhead

theorem length_rest_lt (h : Parts pattern part rest) (hne : pattern ≠ []) : rest.length < pattern.length := by
  have hlen := congrArg List.length h.append
  have hle := (List.dropWhile_suffix (· == '*') (l := pattern)).length_le
  rw [List.length_append] at hlen
  by_contra hge
  have hpart : part = [] := List.length_eq_zero_iff.mp (by omega)
  rw [h.rest_eq_nil hpart] at hge
  exact hge (List.length_pos_iff.mpr hne)

end Parts

theorem check_simple {pattern : List Char} (h : ∀ c ∈ pattern, Simple c) (fuel : Nat) : check fuel pattern = .ok () := by
  induction fuel generalizing pattern with
  | zero => rfl
  | succ fuel ih =>
    obtain ⟨part, rest, hparts⟩ := exists_parts h
    obtain ⟨r, hr, -⟩ := matchStart_plain hparts.plain []
    rw [check, hparts.chunk]
    split
    · rfl
    · dsimp only
      rw [hr, ok_bind]
      exact ih hparts.simple

/-! What a pattern covers, by its first star. -/

theorem coversBytes_nil_iff {name : Bytes} : CoversBytes [] name ↔ name = [] := by
  constructor
  · rintro ⟨⟩
    rfl
  · rintro rfl
    exact .nil

theorem coversBytes_append_iff {part rest : List Char} (h : ∀ c ∈ part, Plain c) {name : Bytes} :
    CoversBytes (part ++ rest) name ↔
      ∃ left, name = part.flatMap String.utf8EncodeChar ++ left ∧ CoversBytes rest left := by
  induction part generalizing name with
  | nil => simp
  | cons c part ih =>
    obtain ⟨hc, hpart⟩ := List.forall_mem_cons.mp h
    constructor
    · rintro (_ | ⟨_, hcovers⟩ | _)
      · obtain ⟨left, rfl, hleft⟩ := (ih hpart).mp hcovers
        exact ⟨left, by simp, hleft⟩
      · exact absurd rfl hc.1
    · rintro ⟨left, rfl, hleft⟩
      rw [List.flatMap_cons, List.append_assoc]
      exact .char hc.1 ((ih hpart).mpr ⟨left, rfl, hleft⟩)

theorem coversBytes_star_iff {pattern : List Char} {name : Bytes} :
    CoversBytes ('*' :: pattern) name ↔ ∃ left, left <:+ name ∧ CoversBytes pattern left := by
  constructor
  · rintro (_ | ⟨hc, _⟩ | ⟨any, hcovers⟩)
    · exact absurd rfl hc
    · exact ⟨_, List.suffix_append .., hcovers⟩
  · rintro ⟨left, ⟨any, rfl⟩, hleft⟩
    exact .star any hleft

theorem dropWhile_star_eq {pattern : List Char} (h : pattern.head? ≠ some '*') :
    pattern.dropWhile (· == '*') = pattern := by
  cases pattern with
  | nil => rfl
  | cons c pattern => exact List.dropWhile_cons_of_neg (by simpa using h)

theorem coversBytes_stars_iff {pattern : List Char} {name : Bytes} (hstar : pattern.head? = some '*') :
    CoversBytes pattern name ↔ ∃ left, left <:+ name ∧ CoversBytes (pattern.dropWhile (· == '*')) left := by
  induction pattern generalizing name with
  | nil => simp at hstar
  | cons c pattern ih =>
    obtain rfl : c = '*' := by simpa using hstar
    rw [coversBytes_star_iff, List.dropWhile_cons_of_pos (by simp)]
    by_cases hmore : pattern.head? = some '*'
    · constructor
      · rintro ⟨left, hleft, hcovers⟩
        obtain ⟨last, hlast, hcovers⟩ := (ih hmore).mp hcovers
        exact ⟨last, hlast.trans hleft, hcovers⟩
      · rintro ⟨left, hleft, hcovers⟩
        exact ⟨left, hleft, (ih hmore).mpr ⟨left, List.suffix_rfl, hcovers⟩⟩
    · rw [dropWhile_star_eq hmore]

/-! The place of a part and the rest of the pattern behind it. -/

/-- What is left of a name behind the place of the first part of a pattern. -/
def place (star : Bool) (part rest : List Char) (name : Bytes) : Except Fault (Option Bytes) := do
  match (← matchStart part name).filter fun left => left.isEmpty || !rest.isEmpty with
  | some left => return some left
  | none => if star then matchLater part rest.isEmpty name else return none

/-- Matches the rest of a pattern with what is left of a name. -/
def matchRest (fuel : Nat) (rest : List Char) : Option Bytes → Except Fault Bool
  | some left => matchWithin fuel rest left
  | none => do
    check (rest.length + 1) rest
    return false

theorem matchWithin_eq {pattern part rest : List Char} (h : Parts pattern part rest) (hne : pattern ≠ [])
    (hpart : ¬ (pattern.head? = some '*' ∧ part = [])) (fuel : Nat) (name : Bytes) :
    matchWithin (fuel + 1) pattern name =
      place (pattern.head? == some '*') part rest name >>= matchRest fuel rest := by
  rw [matchWithin, if_neg (by simpa using hne), h.chunk, place]
  dsimp only
  rw [if_neg (by simpa using hpart)]
  cases matchStart part name with
  | error e => rfl
  | ok first =>
    rw [ok_bind, ok_bind]
    have hlater : (if pattern.head? == some '*' then matchLater part rest.isEmpty name else pure none) >>=
        matchRest fuel rest = if pattern.head? == some '*' then matchLater part rest.isEmpty name >>= matchRest fuel rest
          else pure none >>= matchRest fuel rest := by
      split <;> rfl
    cases first with
    | none => exact hlater.symm
    | some left =>
      by_cases hends : left.isEmpty || !rest.isEmpty
      · rw [Option.filter_some, if_pos hends]
        exact if_pos hends
      · rw [Option.filter_some, if_neg hends]
        exact (if_neg hends).trans hlater.symm

/-- What is left behind a place of the part, and no more is left behind any other place. Behind a star the place may be
anywhere, and with nothing behind the part it is at the end. -/
structure Places (star : Bool) (part rest : List Char) (name : Bytes) (answer : Option Bytes) : Prop where
  sound : ∀ left, answer = some left → (rest = [] → left = []) ∧
    ∃ x, (star ∨ x = []) ∧ name = x ++ (part.flatMap String.utf8EncodeChar ++ left)
  complete : ∀ x left, star ∨ x = [] → name = x ++ (part.flatMap String.utf8EncodeChar ++ left) →
    (rest = [] → left = []) → ∃ found, answer = some found ∧ left <:+ found

theorem place_plain {part : List Char} (h : ∀ c ∈ part, Plain c) (star : Bool) (rest : List Char) {name : Bytes}
    (hs : slash ∉ name) : ∃ answer, place star part rest name = .ok answer ∧ Places star part rest name answer := by
  obtain ⟨first, hfirst, hleft⟩ := matchStart_plain h name
  rw [place, hfirst, ok_bind]
  cases hkept : first.filter fun left => left.isEmpty || !rest.isEmpty with
  | some left =>
    obtain ⟨rfl, hends⟩ := Option.filter_eq_some_iff.mp hkept
    have hname := (hleft left).mp rfl
    refine ⟨some left, rfl, ?_, fun x other _ hother _ => ?_⟩
    · rintro _ ⟨⟩
      exact ⟨fun hrest => by simpa [hrest] using hends, [], .inr rfl, hname⟩
    · exact ⟨left, rfl, suffix_of_append_eq (x := []) (hname.symm.trans hother) (Nat.zero_le _)⟩
  | none =>
    have hnone (left : Bytes) (hname : name = part.flatMap String.utf8EncodeChar ++ left) :
        ¬ (rest = [] → left = []) := by
      have hends := Option.filter_eq_none_iff.mp hkept left ((hleft left).mpr hname)
      simpa [and_comm] using hends
    cases star with
    | false =>
      refine ⟨none, rfl, by simp, fun x left hx hname hlast => ?_⟩
      obtain rfl : x = [] := by simpa using hx
      exact absurd hlast (hnone left hname)
    | true =>
      obtain ⟨answer, hanswer, hfinds⟩ := matchLater_plain h rest.isEmpty hs
      refine ⟨answer, hanswer, fun left hl => ?_, fun x left _ hname hlast => ?_⟩
      · obtain ⟨hlast, x, hx⟩ := hfinds.sound left hl
        exact ⟨fun hrest => hlast (by simp [hrest]), x, .inl rfl, hx⟩
      · by_cases hx : x = []
        · subst hx
          exact absurd hlast (hnone left hname)
        · exact hfinds.complete x left hx hname fun hrest => hlast (by simpa using hrest)

/-- The first place decides: behind it the rest of the pattern covers what is left if it does so behind any other. -/
theorem Places.covers_iff {pattern part rest : List Char} {name : Bytes} {answer : Option Bytes}
    (h : Places (pattern.head? == some '*') part rest name answer) (hparts : Parts pattern part rest) :
    CoversBytes pattern name ↔ ∃ left, answer = some left ∧ CoversBytes rest left := by
  have hplaces : CoversBytes pattern name ↔ ∃ x left, ((pattern.head? == some '*') ∨ x = []) ∧
      name = x ++ (part.flatMap String.utf8EncodeChar ++ left) ∧ CoversBytes rest left := by
    by_cases hstar : pattern.head? = some '*'
    · rw [coversBytes_stars_iff hstar, hparts.append]
      constructor
      · rintro ⟨_, ⟨x, rfl⟩, hcovers⟩
        obtain ⟨left, rfl, hleft⟩ := (coversBytes_append_iff hparts.plain).mp hcovers
        exact ⟨x, left, .inl (by simp [hstar]), rfl, hleft⟩
      · rintro ⟨x, left, -, rfl, hcovers⟩
        exact ⟨_, List.suffix_append .., (coversBytes_append_iff hparts.plain).mpr ⟨left, rfl, hcovers⟩⟩
    · have happend := hparts.append
      rw [dropWhile_star_eq hstar] at happend
      rw [happend, coversBytes_append_iff hparts.plain, ← happend]
      simp [hstar]
  rw [hplaces]
  constructor
  · rintro ⟨x, left, hx, hname, hcovers⟩
    obtain ⟨found, rfl, hsuffix⟩ := h.complete x left hx hname fun hnil => coversBytes_nil_iff.mp (hnil ▸ hcovers)
    refine ⟨found, rfl, ?_⟩
    by_cases hnil : rest = []
    · subst hnil
      exact coversBytes_nil_iff.mpr ((h.sound found rfl).1 rfl)
    · -- the star behind the part takes what lies between the two places
      obtain ⟨last, hlast, hcovers⟩ := (coversBytes_stars_iff (hparts.star hnil)).mp hcovers
      exact (coversBytes_stars_iff (hparts.star hnil)).mpr ⟨last, hlast.trans hsuffix, hcovers⟩
  · rintro ⟨left, rfl, hcovers⟩
    obtain ⟨-, x, hx, hname⟩ := h.sound left rfl
    exact ⟨x, left, hx, hname, hcovers⟩

theorem matchWithin_simple {pattern : List Char} (h : ∀ c ∈ pattern, Simple c) {name : Bytes} (hs : slash ∉ name)
    {fuel : Nat} (hf : pattern.length < fuel) :
    ∃ b, matchWithin fuel pattern name = .ok b ∧ (b = true ↔ CoversBytes pattern name) := by
  induction fuel generalizing pattern name with
  | zero => omega
  | succ fuel ih =>
    by_cases hne : pattern = []
    · subst hne
      exact ⟨name.isEmpty, rfl, by simp [coversBytes_nil_iff]⟩
    obtain ⟨part, rest, hparts⟩ := exists_parts h
    by_cases hpart : pattern.head? = some '*' ∧ part = []
    · have hstars : pattern.dropWhile (· == '*') = [] := by rw [hparts.append, hpart.2, hparts.rest_eq_nil hpart.2]; rfl
      have hcovers : CoversBytes pattern name :=
        (coversBytes_stars_iff hpart.1).mpr ⟨[], List.nil_suffix, hstars ▸ .nil⟩
      refine ⟨!name.contains slash, ?_, by simp [hcovers, hs]⟩
      rw [matchWithin, if_neg (by simpa using hne), hparts.chunk]
      exact if_pos (by simp [hpart])
    obtain ⟨answer, hanswer, hplaces⟩ := place_plain hparts.plain (pattern.head? == some '*') rest hs
    rw [matchWithin_eq hparts hne hpart, hanswer, ok_bind, hplaces.covers_iff hparts]
    cases answer with
    | none => exact ⟨false, by rw [matchRest, check_simple hparts.simple]; rfl, by simp⟩
    | some left =>
      obtain ⟨-, x, -, rfl⟩ := hplaces.sound left rfl
      have hlen := hparts.length_rest_lt hne
      have hleft : slash ∉ left := fun hl => hs (by simp [hl])
      obtain ⟨b, hb, hcovers⟩ := ih hparts.simple hleft (by omega)
      exact ⟨b, hb, by simpa using hcovers⟩

theorem slash_notMem {name : List Char} (h : '/' ∉ name) : slash ∉ name.flatMap String.utf8EncodeChar := by
  intro hs
  obtain ⟨x, y, hxy⟩ := List.append_of_mem hs
  obtain ⟨before, after, rfl, -⟩ := exists_of_encodeChar_infix (c := '/') (x := x) (y := y) hxy.symm
  simp at h

/-- A pattern in which only stars have a meaning matches the names that it covers. -/
theorem matchName_simple {pattern name : String} (h : ∀ c ∈ pattern.toList, Simple c) (hname : '/' ∉ name.toList) :
    ∃ b, matchName pattern name = .ok b ∧ (b = true ↔ Covers pattern.toList name.toList) := by
  rw [matchName, show Text.encodeUtf8 name = utf8Bytes name from rfl, utf8Bytes_eq_flatMap, ← coversBytes_iff]
  exact matchWithin_simple h (slash_notMem hname) (Nat.lt_succ_of_le (Nat.le_of_eq String.length_toList))

theorem hasMeta_eq_false_iff {pattern : String} : hasMeta pattern = false ↔ ∀ c ∈ pattern.toList, Plain c := by
  have hmeta : "*?[\\".toList = ['*', '?', '[', '\\'] := rfl
  simp [hasMeta, hmeta, Plain]

theorem covers_plain_iff {pattern name : List Char} (h : ∀ c ∈ pattern, Plain c) :
    Covers pattern name ↔ pattern = name := by
  induction pattern generalizing name with
  | nil =>
    constructor
    · rintro ⟨⟩
      rfl
    · rintro rfl
      exact .nil
  | cons c pattern ih =>
    obtain ⟨hc, hpattern⟩ := List.forall_mem_cons.mp h
    constructor
    · rintro (_ | ⟨-, hcovers⟩ | _)
      · rw [(ih hpattern).mp hcovers]
      · exact absurd rfl hc.1
    · rintro rfl
      exact .char hc.1 ((ih hpattern).mpr rfl)

/-- A pattern without characters that have a meaning matches itself only. -/
theorem matchName_literal {pattern name : String} (h : hasMeta pattern = false) (hname : '/' ∉ name.toList) :
    matchName pattern name = .ok true ↔ pattern = name := by
  rw [hasMeta_eq_false_iff] at h
  obtain ⟨b, hb, hcovers⟩ := matchName_simple (fun c hc => (h c hc).2) hname
  rw [covers_plain_iff h, String.toList_inj] at hcovers
  simp [hb, hcovers]

end Glob

end Linkage
