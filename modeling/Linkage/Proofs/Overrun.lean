import Mathlib.Data.List.Induction
import Linkage.Proofs.Extent

/-!
Reads one after the other. Those before the first overrun take slices that follow one another from the start of the
data to the position. The read that asks for more than is left, or for less than nothing, leaves the cursor where it
stands, and so does every read after it.
-/
namespace Linkage

/-- A read from a cursor. -/
inductive Read where
  | u1
  | u2
  | u4
  | bytes (n : Int)
deriving DecidableEq

namespace Read

/-- What a read answers. -/
inductive Answer where
  | number (n : Nat)
  | bytes (bs : Bytes)
deriving DecidableEq

/-- The number of bytes asked for. -/
def width : Read → Int
  | .u1 => 1
  | .u2 => 2
  | .u4 => 4
  | .bytes n => n

def run : Read → Cursor → Answer × Cursor
  | .u1, c => c.u1.map .number id
  | .u2, c => c.u2.map .number id
  | .u4, c => c.u4.map .number id
  | .bytes n, c => (c.bytes n).map .bytes id

/-- Zero, or no bytes. -/
def blank : Read → Answer
  | .bytes _ => .bytes []
  | _ => .number 0

/-- The answers to the reads, one after the other from the start of the data, and where they leave the cursor. -/
def runAll (data : Bytes) (reads : List Read) : List Answer × Cursor :=
  reads.foldl (fun (answers, c) read => (answers ++ [(read.run c).1], (read.run c).2)) ([], Cursor.ofBytes data)

theorem runAll_concat (data : Bytes) (reads : List Read) (read : Read) :
    runAll data (reads ++ [read]) =
      ((runAll data reads).1 ++ [(read.run (runAll data reads).2).1], (read.run (runAll data reads).2).2) := by
  simp [runAll]

/-- As many bytes as the read asks for are left behind the position. -/
def Fits (data : Bytes) (pos : Nat) (read : Read) : Prop := 0 ≤ read.width ∧ pos + read.width ≤ data.length

/-- The read of this slice gives this answer; numbers have their high bytes first. -/
inductive Tells : Read → Bytes → Answer → Prop
  | u1 (a : UInt8) : Tells .u1 [a] (.number a.toNat)
  | u2 (a b : UInt8) : Tells .u2 [a, b] (.number (2 ^ 8 * a.toNat + b.toNat))
  | u4 (a b c d : UInt8) :
    Tells .u4 [a, b, c, d] (.number (2 ^ 24 * a.toNat + 2 ^ 16 * b.toNat + 2 ^ 8 * c.toNat + d.toNat))
  | bytes (bs : Bytes) : Tells (.bytes bs.length) bs (.bytes bs)

/-- The reads took slices that make up the data before the position, and gave these answers. -/
def Takes (data : Bytes) (reads : List Read) (answers : List Answer) (pos : Nat) : Prop :=
  ∃ slices : List Bytes, slices.flatten = data.take pos ∧ reads.length = answers.length ∧
    List.Forall₂ (fun read slice => Tells read.1 slice read.2) (reads.zip answers) slices

/-- What reads one after the other come to: some of them took their slices, and the first of the others did not fit. -/
structure Account (data : Bytes) (reads : List Read) (answers : List Answer) (c : Cursor) : Prop where
  rest : c.rest = data.drop c.pos
  bound : c.pos ≤ data.length
  split : ∃ done refused told, reads = done ++ refused ∧ answers = told ++ refused.map blank ∧
    Takes data done told c.pos ∧ (∀ read ∈ refused.head?, ¬ read.Fits data c.pos) ∧
    c.fault = refused.head?.map fun read => ⟨read.width, c.pos, data.length - c.pos⟩

variable {data : Bytes} {pos : Nat} {read : Read} {reads : List Read} {answers : List Answer} {c : Cursor}

/-! One read. -/

/-- What a read makes of its bytes. -/
def value : Read → Bytes → Answer
  | .bytes _, bs => .bytes bs
  | _, bs => .number bs.toNat

theorem run_eq (read : Read) (c : Cursor) :
    read.run c = (read.value (c.bytes read.width).1, (c.bytes read.width).2) := by
  cases read <;> rfl

theorem value_nil (read : Read) : read.value [] = read.blank := by
  cases read <;> rfl

theorem tells_value {slice : Bytes} (h : (slice.length : Int) = read.width) : read.Tells slice (read.value slice) := by
  cases read with
  | u1 =>
    have hone : slice.length = 1 := Int.ofNat.inj h
    obtain ⟨a, rfl⟩ := List.length_eq_one_iff.mp hone
    simpa [value, Bytes.toNat] using Tells.u1 a
  | u2 =>
    have htwo : slice.length = 2 := Int.ofNat.inj h
    obtain ⟨a, b, rfl⟩ := List.length_eq_two.mp htwo
    simpa [value, Bytes.toNat] using Tells.u2 a b
  | u4 =>
    have hfour : slice.length = 4 := Int.ofNat.inj h
    obtain ⟨a, rest, rfl⟩ := List.exists_cons_of_length_eq_add_one hfour
    obtain ⟨b, c, d, rfl⟩ := List.length_eq_three.mp (Nat.succ.inj hfour)
    have hvalue : Bytes.toNat [a, b, c, d] = 2 ^ 24 * a.toNat + 2 ^ 16 * b.toNat + 2 ^ 8 * c.toNat + d.toNat := by
      simp only [Bytes.toNat, List.foldl_cons, List.foldl_nil]
      omega
    change Tells .u4 _ (.number (Bytes.toNat [a, b, c, d]))
    rw [hvalue]
    exact Tells.u4 a b c d
  | bytes n =>
    obtain rfl : n = slice.length := h.symm
    exact Tells.bytes slice

theorem run_of_fits (h : read.Fits data pos) :
    ∃ slice next, data.take next = data.take pos ++ slice ∧ pos ≤ next ∧ next ≤ data.length ∧
      (slice.length : Int) = read.width ∧
      read.run (Cursor.atPos data pos) = (read.value slice, Cursor.atPos data next) := by
  obtain ⟨n, hn⟩ := Int.eq_ofNat_of_zero_le h.1
  have hle : pos + n ≤ data.length := by
    have := h.2
    omega
  refine ⟨data.slice pos n, pos + n, ?_, by omega, hle, ?_, ?_⟩
  · rw [List.take_add]
    rfl
  · rw [Bytes.length_slice hle, hn]
  · rw [run_eq, hn, Cursor.bytes_atPos_of_le hle]

theorem run_of_not_fits (hpos : pos ≤ data.length) (h : ¬ read.Fits data pos) :
    read.run (Cursor.atPos data pos) =
      (read.blank, ⟨pos, data.drop pos, some ⟨read.width, pos, data.length - pos⟩⟩) := by
  have hfew : ¬ (0 ≤ read.width ∧ ((data.drop pos).take read.width.toNat).length = read.width.toNat) := by
    rintro ⟨hnonneg, hlength⟩
    rw [List.length_take, List.length_drop] at hlength
    exact h ⟨hnonneg, by omega⟩
  have hbytes : (Cursor.atPos data pos).bytes read.width =
      ([], ⟨pos, data.drop pos, some ⟨read.width, pos, data.length - pos⟩⟩) := by
    simp only [Cursor.bytes, Cursor.atPos, if_neg hfew, List.length_drop]
  rw [run_eq, hbytes, value_nil]

theorem run_of_fault {t : Truncation} (h : c.fault = some t) (read : Read) : read.run c = (read.blank, c) := by
  have hbytes : c.bytes read.width = ([], c) := by simp only [Cursor.bytes, h]
  rw [run_eq, hbytes, value_nil]

/-! Any number of them. -/

theorem Takes.concat {slice : Bytes} {next : Nat} (h : Takes data reads answers pos)
    (hslice : data.take next = data.take pos ++ slice) (hlength : (slice.length : Int) = read.width) :
    Takes data (reads ++ [read]) (answers ++ [read.value slice]) next := by
  obtain ⟨slices, hflat, heq, hall⟩ := h
  refine ⟨slices ++ [slice], ?_, by simp [heq], ?_⟩
  · rw [List.flatten_concat, hflat, hslice]
  · rw [List.zip_append heq]
    exact List.rel_append hall (.cons (tells_value hlength) .nil)

theorem account_nil (data : Bytes) : Account data [] [] (Cursor.ofBytes data) where
  rest := rfl
  bound := Nat.zero_le _
  split := ⟨[], [], [], rfl, rfl, ⟨[], rfl, rfl, .nil⟩, by simp, rfl⟩

theorem Account.concat (h : Account data reads answers c) (read : Read) :
    Account data (reads ++ [read]) (answers ++ [(read.run c).1]) (read.run c).2 ∧ c.pos ≤ (read.run c).2.pos := by
  obtain ⟨done, refused, told, rfl, rfl, htakes, hfirst, hfault⟩ := h.split
  cases refused with
  | nil =>
    have hc : c = Cursor.atPos data c.pos := by
      cases c
      simpa [Cursor.atPos] using ⟨h.rest, hfault⟩
    by_cases hfits : read.Fits data c.pos
    · obtain ⟨slice, next, hslice, hle, hnext, hlength, hrun⟩ := run_of_fits hfits
      rw [← hc] at hrun
      rw [hrun]
      refine ⟨⟨rfl, hnext, done ++ [read], [], told ++ [read.value slice], by simp, by simp, ?_, by simp, rfl⟩, hle⟩
      exact htakes.concat hslice hlength
    · have hrun := run_of_not_fits h.bound hfits
      rw [← hc] at hrun
      rw [hrun]
      refine ⟨⟨rfl, h.bound, done, [read], told, by simp, by simp, htakes, ?_, rfl⟩, Nat.le_refl _⟩
      simpa using hfits
  | cons first refused =>
    rw [run_of_fault hfault]
    refine ⟨⟨h.rest, h.bound, done, first :: refused ++ [read], told, ?_, ?_, htakes, hfirst, hfault⟩, Nat.le_refl _⟩
    · rw [List.append_assoc]
    · simp

theorem account (data : Bytes) (reads : List Read) : Account data reads (runAll data reads).1 (runAll data reads).2 := by
  induction reads using List.reverseRecOn with
  | nil => exact account_nil data
  | append_singleton reads read ih =>
    rw [runAll_concat]
    exact (ih.concat read).1

theorem pos_le (data : Bytes) (reads more : List Read) :
    (runAll data reads).2.pos ≤ (runAll data (reads ++ more)).2.pos := by
  induction more using List.reverseRecOn with
  | nil => simp
  | append_singleton more read ih =>
    rw [← List.append_assoc, runAll_concat]
    exact Nat.le_trans ih ((account data (reads ++ more)).concat read).2

theorem runAll_of_fault {t : Truncation} (h : (runAll data reads).2.fault = some t) (more : List Read) :
    runAll data (reads ++ more) = ((runAll data reads).1 ++ more.map blank, (runAll data reads).2) := by
  induction more using List.reverseRecOn with
  | nil => simp
  | append_singleton more read ih =>
    rw [← List.append_assoc, runAll_concat, ih, run_of_fault h]
    simp

/-- Whatever is read, the position never goes back and stays within the data. Up to the first read that does not fit,
the reads take slices that follow one another and answer with their values; that read is blamed and moves nothing; and
once a read is blamed, all that follow answer blank and change nothing. -/
theorem runAll_safe_and_sticky (data : Bytes) (reads more : List Read) :
    let first := runAll data reads
    let later := runAll data (reads ++ more)
    Account data reads first.1 first.2 ∧ (first.2.pos ≤ later.2.pos ∧ later.2.pos ≤ data.length) ∧
      (first.2.fault.isSome → later = (first.1 ++ more.map blank, first.2)) := by
  refine ⟨account data reads, ⟨pos_le data reads more, (account data (reads ++ more)).bound⟩, fun h => ?_⟩
  obtain ⟨t, ht⟩ := Option.isSome_iff_exists.mp h
  exact runAll_of_fault ht more

/-- Of three bytes a second read of two does not fit, and the byte that is left stays there. -/
theorem runAll_two_of_three :
    (runAll [1, 2, 3] [.u2, .u2]).2.fault.isSome ∧
      runAll [1, 2, 3] [.u2, .u2, .u1, .bytes (-1)] =
        ([.number 258, .number 0, .number 0, .bytes []], ⟨2, [3], some ⟨2, 2, 1⟩⟩) :=
  ⟨by decide, (runAll_safe_and_sticky [1, 2, 3] [.u2, .u2] [.u1, .bytes (-1)]).2.2 (by decide)⟩

end Read

end Linkage
