import Mathlib.Algebra.Group.Nat.Defs
import Mbench.Library.Loop
import Mbench.Library.Memory

/-! `hexdump` of `u32_radix_sort_portable.cpp` and `u32_radix_sort_demo.cpp`, which have it in the same form: a first line
that is padded, full lines of sixteen bytes, and the bytes that are left. -/

namespace Mbench.SortSpeed
open Library

inductive Token
  | pointer (address : UInt64)
  | hex (byte : UInt8)
  | hex02 (byte : UInt8)
  | text (literal : String)
  deriving DecidableEq, Repr

def Token.byte? : Token → Option UInt8
  | pointer _ => none
  | hex byte => some byte
  | hex02 byte => some byte
  | text _ => none

def sep : Token := .text "    "

/-- The variables of `hexdump`, what it has printed and the addresses it has read. -/
structure Dump where
  out : List Token
  reads : List Nat
  loc : Nat
  len : UInt64
  nLeft : Nat
  pos : Nat

namespace Dump

def put (dump : Dump) (tokens : List Token) : Dump := { dump with out := dump.out ++ tokens }

def bytes (dump : Dump) : List UInt8 := dump.out.filterMap Token.byte?

/-- `pos++`, and a separator after four places. -/
def advance (dump : Dump) : Dump :=
  let pos := dump.pos + 1
  { dump with pos, out := if pos % 4 = 0 then dump.out ++ [sep] else dump.out }

def printBytes (heap : Heap UInt8) (count : Nat) (format : List UInt8 → List Token) (dump : Dump) : Option Dump := do
  let bytes ← heap.read dump.loc count
  some { dump with
    out := dump.out ++ format bytes
    reads := dump.reads ++ (List.range count).map (dump.loc + ·)
    loc := dump.loc + count }

def printByte (heap : Heap UInt8) (dump : Dump) : Option Dump := do
  let dump ← dump.printBytes heap 1 fun bytes => bytes.flatMap fun byte => [.hex byte, .text " "]
  some { dump with len := dump.len - 1 }.advance

def printQuad (heap : Heap UInt8) : Dump → Option Dump :=
  printBytes heap 4 fun bytes => (bytes.map Token.hex02).intersperse (.text " ") ++ [sep]

def printPadding (dump : Dump) : Option Dump :=
  some { dump.put [.text "   "] with nLeft := dump.nLeft - 1 }.advance

def printHead (heap : Heap UInt8) (dump : Dump) : Option Dump := do
  let dump ← dump.printByte heap
  some { dump with nLeft := dump.nLeft - 1 }

def printPointer (dump : Dump) : Dump := dump.put [.pointer (UInt64.ofNat dump.loc), .text "\t"]

def printLine (heap : Heap UInt8) (dump : Dump) : Option Dump := do
  let dump ← dump.printPointer.printQuad heap
  let dump ← dump.printQuad heap
  let dump ← dump.printQuad heap
  let dump ← dump.printQuad heap
  some ({ dump with len := dump.len - 0x10 }.put [.text "\n"])

def whileLeft (body : Dump → Option Dump) : Dump → Option Dump :=
  whileLoop (fun dump => some (dump.nLeft ≠ 0)) body 0x10

def printLines (fuel : Nat) (heap : Heap UInt8) : Dump → Option Dump :=
  whileLoop (fun dump => some (0xF < dump.len)) (printLine heap) fuel

def printTail (fuel : Nat) (heap : Heap UInt8) : Dump → Option Dump :=
  whileLoop (fun dump => some (dump.len ≠ 0)) (printByte heap) fuel

end Dump

def nPadding (mem : Nat) : Nat := (0x10 - (mem &&& 0xF)) &&& 0xF

def paddedLine (heap : Heap UInt8) (mem : Nat) (dump : Dump) : Option Dump := do
  let dump := dump.put [.pointer (UInt64.ofNat mem - UInt64.ofNat (nPadding mem)), .text "\t"]
  let dump ← Dump.whileLeft Dump.printPadding { dump with nLeft := nPadding mem }
  let dump ← Dump.whileLeft (Dump.printHead heap) { dump with nLeft := 0x10 - nPadding mem }
  some (dump.put [.text "\n"])

def hexdumpHead (heap : Heap UInt8) (mem : Nat) (dump : Dump) : Option Dump :=
  if nPadding mem ≠ 0 then paddedLine heap mem dump else some dump

def hexdumpTail (fuel : Nat) (heap : Heap UInt8) (dump : Dump) : Option Dump :=
  if 0 < dump.len then Dump.printTail fuel heap { dump.printPointer with pos := 0 } else some dump

def dumpStart (mem : Nat) (len : UInt64) : Dump where
  out := []
  reads := []
  loc := mem
  len
  nLeft := 0
  pos := 0

/-- `hexdump`, with fuel for the loops that `len` bounds. -/
def hexdump (fuel : Nat) (heap : Heap UInt8) (mem : Nat) (len : UInt64) : Option Dump := do
  let dump ← hexdumpHead heap mem (dumpStart mem len)
  let dump ← dump.printLines fuel heap
  hexdumpTail fuel heap dump

theorem nPadding_eq (mem : Nat) : nPadding mem = (0x10 - mem % 0x10) % 0x10 := by
  rw [nPadding, show 0xF = 2 ^ 4 - 1 from rfl, Nat.and_two_pow_sub_one_eq_mod, Nat.and_two_pow_sub_one_eq_mod]

namespace Dump

theorem advance_bytes (dump : Dump) : dump.advance.bytes = dump.bytes := by
  simp only [advance, bytes]
  split
  · rw [List.filterMap_append]
    exact List.append_nil _
  · rfl

theorem bytes_put (dump : Dump) (tokens : List Token) :
    (dump.put tokens).bytes = dump.bytes ++ tokens.filterMap Token.byte? :=
  List.filterMap_append

theorem hex_bytes (bytes : List UInt8) :
    (bytes.flatMap fun byte => [Token.hex byte, .text " "]).filterMap Token.byte? = bytes := by
  induction bytes with
  | nil => rfl
  | cons byte bytes ih => simpa [Token.byte?, List.filterMap_cons] using ih

theorem hex02_bytes (bytes : List UInt8) :
    ((bytes.map Token.hex02).intersperse (.text " ") ++ [sep]).filterMap Token.byte? = bytes := by
  induction bytes with
  | nil => rfl
  | cons byte bytes ih =>
    cases bytes with
    | nil => rfl
    | cons second bytes => simpa [Token.byte?, List.filterMap_cons] using ih

/-- The first `k` bytes have been read and printed, each once and in their order. -/
structure Shown (mem : Nat) (values : List UInt8) (k : Nat) (dump : Dump) : Prop where
  loc : dump.loc = mem + k
  reads : dump.reads = (List.range k).map (mem + ·)
  bytes : dump.bytes = values.take k

section
variable {heap : Heap UInt8} {mem k count : Nat} {values : List UInt8} {dump next : Dump}

theorem Shown.congr (shown : Shown mem values k dump) (loc : next.loc = dump.loc) (reads : next.reads = dump.reads)
    (bytes : next.bytes = dump.bytes) : Shown mem values k next :=
  ⟨loc.trans shown.loc, reads.trans shown.reads, bytes.trans shown.bytes⟩

theorem Shown.put (shown : Shown mem values k dump) {tokens : List Token}
    (silent : tokens.filterMap Token.byte? = []) : Shown mem values k (dump.put tokens) :=
  shown.congr rfl rfl (by rw [bytes_put, silent, List.append_nil])

theorem Shown.printBytes (shown : Shown mem values k dump) (held : heap.Holds mem values)
    {format : List UInt8 → List Token} (formats : ∀ bytes, (format bytes).filterMap Token.byte? = bytes)
    (room : k + count ≤ values.length) :
    ∃ next, dump.printBytes heap count format = some next ∧ Shown mem values (k + count) next ∧ next.len = dump.len ∧
      next.nLeft = dump.nLeft := by
  have size : ((values.drop k).take count).length = count := by
    rw [List.length_take, List.length_drop]
    omega
  have found := (held.window k count room).read
  rw [size, ← Nat.cast_add, ← shown.loc] at found
  refine ⟨{ dump with
    out := dump.out ++ format ((values.drop k).take count)
    reads := dump.reads ++ (List.range count).map (dump.loc + ·)
    loc := dump.loc + count }, by rw [Dump.printBytes, found]; rfl, ⟨?_, ?_, ?_⟩, rfl, rfl⟩
  · simp only [shown.loc, Nat.add_assoc]
  · simp only [shown.reads, shown.loc, List.range_add, List.map_append, List.map_map, Function.comp_def, Nat.add_assoc]
  · rw [List.take_add, ← shown.bytes]
    exact (bytes_put dump _).trans (congrArg _ (formats _))

theorem Shown.printByte (shown : Shown mem values k dump) (held : heap.Holds mem values) (room : k < values.length) :
    ∃ next, dump.printByte heap = some next ∧ Shown mem values (k + 1) next ∧ next.len = dump.len - 1 ∧
      next.nLeft = dump.nLeft := by
  obtain ⟨next, printed, shown, len, nLeft⟩ := shown.printBytes held hex_bytes (show k + 1 ≤ values.length from room)
  refine ⟨({ next with len := next.len - 1 } : Dump).advance, by rw [Dump.printByte, printed]; rfl, ?_, ?_, nLeft⟩
  · exact shown.congr rfl rfl (advance_bytes _)
  · rw [← len]
    rfl

theorem Shown.printQuad (shown : Shown mem values k dump) (held : heap.Holds mem values)
    (room : k + 4 ≤ values.length) :
    ∃ next, dump.printQuad heap = some next ∧ Shown mem values (k + 4) next ∧ next.len = dump.len := by
  obtain ⟨next, printed, shown, len, -⟩ := shown.printBytes held hex02_bytes room
  exact ⟨next, printed, shown, len⟩

theorem Shown.printLine (shown : Shown mem values k dump) (held : heap.Holds mem values)
    (room : k + 16 ≤ values.length) :
    ∃ next, dump.printLine heap = some next ∧ Shown mem values (k + 16) next ∧ next.len = dump.len - 0x10 := by
  have start : Shown mem values k dump.printPointer := shown.put rfl
  obtain ⟨one, printedOne, shown, lenOne⟩ := start.printQuad held (by omega)
  obtain ⟨two, printedTwo, shown, lenTwo⟩ := shown.printQuad held (by omega)
  obtain ⟨three, printedThree, shown, lenThree⟩ := shown.printQuad held (by omega)
  obtain ⟨four, printedFour, shown, lenFour⟩ := shown.printQuad held (by omega)
  have ended : Shown mem values (k + 16) ({ four with len := four.len - 0x10 } : Dump) := shown.congr rfl rfl rfl
  refine ⟨_, ?_, @Shown.put _ _ _ _ ended [.text "\n"] rfl, ?_⟩
  · simp only [Dump.printLine, printedOne, printedTwo, printedThree, printedFour, Option.bind_eq_bind, Option.bind_some]
  · rw [Dump.put, lenFour, lenThree, lenTwo, lenOne]
    rfl

def Counted (mem : Nat) (values : List UInt8) (dump : Dump) : Prop :=
  ∃ k, Shown mem values k dump ∧ dump.len.toNat + k = values.length

theorem Counted.len_le (counted : Counted mem values dump) : dump.len.toNat ≤ values.length := by
  obtain ⟨k, -, total⟩ := counted
  omega

theorem whileLeft_rule (body : Dump → Option Dump) (invariant : Dump → Prop)
    (step : ∀ dump, invariant dump → dump.nLeft ≠ 0 →
      ∃ next, body dump = some next ∧ invariant next ∧ next.nLeft = dump.nLeft - 1)
    (start : invariant dump) (small : dump.nLeft < 0x10) :
    ∃ final, whileLeft body dump = some final ∧ invariant final ∧ final.nLeft = 0 := by
  obtain ⟨final, ran, held, stopped⟩ :=
    whileLoop_rule (fun dump => some (dump.nLeft ≠ 0)) body invariant (fun dump => dump.nLeft) (fun dump held => by
      by_cases zero : dump.nLeft = 0
      · exact Or.inl (by simp [zero])
      · obtain ⟨next, advanced, held, fewer⟩ := step dump held zero
        exact Or.inr ⟨by simp [zero], next, advanced, held, by omega⟩) dump start 0x10 small
  exact ⟨final, ran, held, by simpa using stopped⟩

theorem Shown.padding (shown : Shown mem values k dump) (small : dump.nLeft < 0x10) :
    ∃ final, whileLeft printPadding dump = some final ∧ Shown mem values k final ∧ final.len = dump.len := by
  obtain ⟨final, ran, ⟨shown, len⟩, -⟩ := whileLeft_rule printPadding
    (fun other => Shown mem values k other ∧ other.len = dump.len) (fun other ⟨shown, len⟩ _ => by
      have padded : Shown mem values k (other.put [.text "   "]) := shown.put rfl
      exact ⟨_, rfl, ⟨padded.congr rfl rfl (advance_bytes _), len⟩, rfl⟩) ⟨shown, rfl⟩ small
  exact ⟨final, ran, shown, len⟩

def Heading (mem : Nat) (values : List UInt8) (dump : Dump) : Prop :=
  ∃ k, Shown mem values k dump ∧ dump.len.toNat + k = values.length ∧ dump.nLeft + k = mem % 0x10

theorem toNat_pred {len : UInt64} (positive : 0 < len.toNat) : (len - 1).toNat + 1 = len.toNat := by
  rw [UInt64.toNat_sub, UInt64.toNat_one]
  have := len.toNat_lt
  omega

theorem Heading.printHead (heading : Heading mem values dump) (held : heap.Holds mem values)
    (room : mem % 0x10 ≤ values.length) (more : dump.nLeft ≠ 0) :
    ∃ next, dump.printHead heap = some next ∧ Heading mem values next ∧ next.nLeft = dump.nLeft - 1 := by
  obtain ⟨k, shown, total, left⟩ := heading
  obtain ⟨next, printed, shown, len, nLeft⟩ := shown.printByte held (by omega)
  have fewer := toNat_pred (show 0 < dump.len.toNat by omega)
  refine ⟨{ next with nLeft := next.nLeft - 1 }, by rw [Dump.printHead, printed]; rfl, ⟨k + 1, ?_, ?_, ?_⟩, ?_⟩
  · exact shown.congr rfl rfl rfl
  · rw [← len] at fewer
    change next.len.toNat + (k + 1) = values.length
    omega
  · change next.nLeft - 1 + (k + 1) = mem % 0x10
    omega
  · exact congrArg (· - 1) nLeft

theorem Counted.printByte (counted : Counted mem values dump) (held : heap.Holds mem values) (more : dump.len ≠ 0) :
    ∃ next, dump.printByte heap = some next ∧ Counted mem values next ∧ next.len.toNat + 1 = dump.len.toNat := by
  obtain ⟨k, shown, total⟩ := counted
  have positive : dump.len.toNat ≠ 0 := fun zero => more (UInt64.toNat_inj.mp zero)
  obtain ⟨next, printed, shown, len, -⟩ := shown.printByte held (by omega)
  have fewer : next.len.toNat + 1 = dump.len.toNat := by
    rw [len]
    exact toNat_pred (by omega)
  exact ⟨next, printed, ⟨k + 1, shown, by omega⟩, fewer⟩

theorem Counted.printLine (counted : Counted mem values dump) (held : heap.Holds mem values) (more : 0xF < dump.len) :
    ∃ next, dump.printLine heap = some next ∧ Counted mem values next ∧ next.len.toNat + 0x10 = dump.len.toNat := by
  obtain ⟨k, shown, total⟩ := counted
  have many : 0xF < dump.len.toNat := UInt64.lt_iff_toNat_lt.mp more
  obtain ⟨next, printed, shown, len⟩ := shown.printLine held (by omega)
  have fewer : next.len.toNat + 0x10 = dump.len.toNat := by
    rw [len, UInt64.toNat_sub]
    have := dump.len.toNat_lt
    have : (0x10 : UInt64).toNat = 0x10 := rfl
    omega
  exact ⟨next, printed, ⟨k + 0x10, shown, by omega⟩, fewer⟩

theorem Counted.printLines (counted : Counted mem values dump) (held : heap.Holds mem values) {fuel : Nat}
    (enough : dump.len.toNat < fuel) :
    ∃ final, dump.printLines fuel heap = some final ∧ Counted mem values final ∧ final.len.toNat ≤ 0xF := by
  obtain ⟨final, ran, counted, stopped⟩ :=
    whileLoop_rule (fun dump => some (0xF < dump.len)) (Dump.printLine heap) (Counted mem values)
      (fun dump => dump.len.toNat) (fun dump counted => by
        by_cases more : 0xF < dump.len
        · obtain ⟨next, printed, counted, fewer⟩ := counted.printLine held more
          exact Or.inr ⟨by simp [more], next, printed, counted, by omega⟩
        · exact Or.inl (by simp [more])) dump counted fuel enough
  exact ⟨final, ran, counted, by simpa [UInt64.le_iff_toNat_le] using stopped⟩

theorem Counted.printTail (counted : Counted mem values dump) (held : heap.Holds mem values) {fuel : Nat}
    (enough : dump.len.toNat < fuel) :
    ∃ final, dump.printTail fuel heap = some final ∧ Counted mem values final ∧ final.len = 0 := by
  obtain ⟨final, ran, counted, stopped⟩ :=
    whileLoop_rule (fun dump => some (dump.len ≠ 0)) (Dump.printByte heap) (Counted mem values)
      (fun dump => dump.len.toNat) (fun dump counted => by
        by_cases zero : dump.len = 0
        · exact Or.inl (by simp [zero])
        · obtain ⟨next, printed, counted, fewer⟩ := counted.printByte held zero
          exact Or.inr ⟨by simp [zero], next, printed, counted, by omega⟩) dump counted fuel enough
  exact ⟨final, ran, counted, by simpa using stopped⟩

/-! What a run reads, if it returns. -/

theorem printBytes_reads {format : List UInt8 → List Token} (printed : dump.printBytes heap count format = some next) :
    next.reads.length = dump.reads.length + count ∧ next.nLeft = dump.nLeft := by
  obtain ⟨bytes, -, same⟩ := Option.bind_eq_some_iff.mp printed
  obtain rfl := Option.some.inj same
  simp

theorem printByte_reads (printed : dump.printByte heap = some next) :
    next.reads.length = dump.reads.length + 1 ∧ next.nLeft = dump.nLeft := by
  obtain ⟨middle, read, same⟩ := Option.bind_eq_some_iff.mp printed
  obtain rfl := Option.some.inj same
  obtain ⟨reads, nLeft⟩ := printBytes_reads read
  exact ⟨reads, nLeft⟩

theorem printHead_reads (printed : dump.printHead heap = some next) :
    next.reads.length = dump.reads.length + 1 ∧ next.nLeft = dump.nLeft - 1 := by
  obtain ⟨middle, read, same⟩ := Option.bind_eq_some_iff.mp printed
  obtain rfl := Option.some.inj same
  obtain ⟨reads, nLeft⟩ := printByte_reads read
  exact ⟨reads, congrArg (· - 1) nLeft⟩

theorem printLine_reads (printed : dump.printLine heap = some next) :
    next.reads.length = dump.reads.length + 0x10 := by
  obtain ⟨one, readOne, printed⟩ := Option.bind_eq_some_iff.mp printed
  obtain ⟨two, readTwo, printed⟩ := Option.bind_eq_some_iff.mp printed
  obtain ⟨three, readThree, printed⟩ := Option.bind_eq_some_iff.mp printed
  obtain ⟨four, readFour, same⟩ := Option.bind_eq_some_iff.mp printed
  obtain rfl := Option.some.inj same
  calc four.reads.length = three.reads.length + 4 := (printBytes_reads readFour).1
    _ = two.reads.length + 4 + 4 := by rw [(printBytes_reads readThree).1]
    _ = one.reads.length + 4 + 4 + 4 := by rw [(printBytes_reads readTwo).1]
    _ = dump.reads.length + 0x10 := by rw [(printBytes_reads readOne).1]; rfl

theorem whileLeft_ended {body : Dump → Option Dump} (ran : whileLeft body dump = some next) (invariant : Dump → Prop)
    (start : invariant dump)
    (step : ∀ dump next, invariant dump → dump.nLeft ≠ 0 → body dump = some next → invariant next) :
    invariant next ∧ next.nLeft = 0 := by
  obtain ⟨held, stopped⟩ := whileLoop_ended ran invariant start fun dump next held more =>
    step dump next held (by simpa using more)
  exact ⟨held, by simpa using stopped⟩

end

end Dump

open Dump

section
variable {heap : Heap UInt8} {mem fuel : Nat} {len : UInt64} {values : List UInt8} {dump final : Dump}

theorem paddedLine_counted (held : heap.Holds mem values) (shown : Shown mem values 0 dump)
    (size : dump.len.toNat = values.length) (unaligned : mem % 0x10 ≠ 0) (room : mem % 0x10 ≤ values.length) :
    ∃ final, paddedLine heap mem dump = some final ∧ Counted mem values final := by
  have padding := nPadding_eq mem
  have start : Shown mem values 0 { dump.put [.pointer (UInt64.ofNat mem - UInt64.ofNat (nPadding mem)), .text "\t"] with
    nLeft := nPadding mem } := (shown.put rfl).congr rfl rfl rfl
  obtain ⟨padded, ranPadding, shown, len⟩ := start.padding (show nPadding mem < 0x10 by omega)
  have heading : Heading mem values { padded with nLeft := 0x10 - nPadding mem } :=
    ⟨0, shown.congr rfl rfl rfl, (congrArg UInt64.toNat len).trans size, show 0x10 - nPadding mem + 0 = _ by omega⟩
  obtain ⟨final, ranHead, ⟨k, shown, total, -⟩, -⟩ := whileLeft_rule (printHead heap) (Heading mem values)
    (fun dump heading more => heading.printHead held room more) heading (show 0x10 - nPadding mem < 0x10 by omega)
  refine ⟨final.put [.text "\n"], ?_, ⟨k, shown.put rfl, total⟩⟩
  simp only [paddedLine, ranPadding, ranHead, Option.bind_eq_bind, Option.bind_some]

theorem hexdumpHead_counted (held : heap.Holds mem values) (size : len.toNat = values.length)
    (room : mem % 0x10 ≤ values.length) :
    ∃ final, hexdumpHead heap mem (dumpStart mem len) = some final ∧ Counted mem values final := by
  have start : Shown mem values 0 (dumpStart mem len) := ⟨rfl, rfl, rfl⟩
  unfold hexdumpHead
  split
  next unaligned =>
    rw [nPadding_eq] at unaligned
    exact paddedLine_counted held start size (by omega) room
  next => exact ⟨dumpStart mem len, rfl, 0, start, size⟩

theorem hexdumpTail_shown (held : heap.Holds mem values) (counted : Counted mem values dump)
    (enough : dump.len.toNat < fuel) :
    ∃ final, hexdumpTail fuel heap dump = some final ∧ Shown mem values values.length final := by
  obtain ⟨k, shown, total⟩ := counted
  unfold hexdumpTail
  split
  next =>
    have pointer : Shown mem values k dump.printPointer := shown.put rfl
    have counted : Counted mem values { dump.printPointer with pos := 0 } := ⟨k, pointer.congr rfl rfl rfl, total⟩
    obtain ⟨final, ran, ⟨k, shown, total⟩, zero⟩ := counted.printTail held enough
    rw [zero, UInt64.toNat_zero, Nat.zero_add] at total
    exact ⟨final, ran, total ▸ shown⟩
  next none_ =>
    have zero : dump.len.toNat = 0 := by simpa [UInt64.lt_iff_toNat_lt] using none_
    rw [zero, Nat.zero_add] at total
    exact ⟨dump, rfl, total ▸ shown⟩

theorem hexdump_shown (held : heap.Holds mem values) (size : len.toNat = values.length)
    (room : mem % 0x10 ≤ values.length) (enough : len.toNat < fuel) :
    ∃ final, hexdump fuel heap mem len = some final ∧ Shown mem values values.length final := by
  obtain ⟨first, ranHead, counted⟩ := hexdumpHead_counted held size room
  obtain ⟨lines, ranLines, counted', -⟩ := counted.printLines held (counted.len_le.trans_lt (size ▸ enough))
  obtain ⟨final, ranTail, shown⟩ := hexdumpTail_shown held counted' (counted'.len_le.trans_lt (size ▸ enough))
  exact ⟨final, by simp only [hexdump, ranHead, ranLines, ranTail, Option.bind_eq_bind, Option.bind_some], shown⟩

theorem paddedLine_reads (ran : paddedLine heap mem dump = some final) (unaligned : mem % 0x10 ≠ 0) :
    final.reads.length = dump.reads.length + mem % 0x10 := by
  have padding := nPadding_eq mem
  obtain ⟨padded, ranPadding, ran⟩ := Option.bind_eq_some_iff.mp ran
  obtain ⟨last, ranHead, same⟩ := Option.bind_eq_some_iff.mp ran
  obtain rfl := Option.some.inj same
  have quiet := (whileLeft_ended ranPadding (fun other => other.reads = dump.reads) rfl fun other next same _ printed => by
    obtain rfl := Option.some.inj printed
    exact same).1
  obtain ⟨total, stopped⟩ := whileLeft_ended ranHead
    (fun other => other.reads.length + other.nLeft = dump.reads.length + mem % 0x10)
    (show padded.reads.length + (0x10 - nPadding mem) = _ by rw [quiet]; omega) fun other next total more printed => by
      obtain ⟨reads, nLeft⟩ := printHead_reads printed
      omega
  change last.reads.length = _
  omega

theorem hexdumpHead_reads (ran : hexdumpHead heap mem dump = some final) : mem % 0x10 ≤ final.reads.length := by
  unfold hexdumpHead at ran
  split at ran
  next unaligned =>
    rw [nPadding_eq] at unaligned
    have read := paddedLine_reads ran (by omega)
    omega
  next aligned =>
    rw [nPadding_eq] at aligned
    omega

theorem hexdump_reads (ran : hexdump fuel heap mem len = some final) : mem % 0x10 ≤ final.reads.length := by
  unfold hexdump at ran
  obtain ⟨first, ranHead, ran⟩ := Option.bind_eq_some_iff.mp ran
  obtain ⟨lines, ranLines, ran⟩ := Option.bind_eq_some_iff.mp ran
  have start := hexdumpHead_reads ranHead
  obtain ⟨middle, -⟩ := whileLoop_ended ranLines (fun dump => mem % 0x10 ≤ dump.reads.length) start
    fun dump next before _ printed => by
      have read := printLine_reads printed
      omega
  unfold hexdumpTail at ran
  split at ran
  next =>
    have ended := whileLoop_ended ran (fun dump => mem % 0x10 ≤ dump.reads.length) middle fun dump next before _ printed => by
      have read := (printByte_reads printed).1
      omega
    exact ended.1
  next => exact Option.some.inj ran ▸ middle

end

/-- `hexdump` reads and prints each byte once and in order, and reads no other one, exactly if the first line of it has
room: that line takes as many bytes as the address is past a multiple of sixteen. -/
theorem hexdump_dumps_iff (fuel : Nat) (heap : Heap UInt8) (mem : Nat) (len : UInt64) (values : List UInt8)
    (held : heap.Holds mem values) (size : len.toNat = values.length) (enough : len.toNat < fuel) :
    (∃ final, hexdump fuel heap mem len = some final ∧ final.reads = (List.range len.toNat).map (mem + ·) ∧
      final.bytes = values) ↔ mem % 0x10 ≤ len.toNat := by
  constructor
  · intro ⟨final, ran, reads, _⟩
    have read := hexdump_reads ran
    rwa [reads, List.length_map, List.length_range] at read
  · intro room
    obtain ⟨final, ran, shown⟩ := hexdump_shown held size (size ▸ room) enough
    have bytes := shown.bytes
    rw [List.take_length] at bytes
    exact ⟨final, ran, size ▸ shown.reads, bytes⟩

theorem hexdump_dumps_iff_seventeen :
    (∃ final, hexdump 18 (Heap.splice Heap.empty 33 (List.replicate 17 7)) 33 17 = some final ∧
      final.reads = (List.range 17).map (33 + ·) ∧ final.bytes = List.replicate 17 7) ↔ 33 % 0x10 ≤ 17 :=
  hexdump_dumps_iff 18 (Heap.splice Heap.empty 33 (List.replicate 17 7)) 33 17 (List.replicate 17 7) Heap.holds_splice_self
    (by decide) (by decide)

/-- The first line of three bytes at the address 8 takes eight, so that `len` wraps; without five more it is undefined. -/
theorem hexdump_overreads :
    (∀ fuel, hexdump fuel (Heap.splice Heap.empty 8 [1, 2, 3]) 8 3 = none) ∧
      (hexdumpHead (Heap.splice Heap.empty 8 [1, 2, 3, 4, 5, 6, 7, 8]) 8 (dumpStart 8 3)).map
        (fun dump => (dump.reads, dump.len)) = some ([8, 9, 10, 11, 12, 13, 14, 15], 18446744073709551611) := by
  constructor
  · intro fuel
    have nowhere : hexdumpHead (Heap.splice Heap.empty 8 [1, 2, 3]) 8 (dumpStart 8 3) = none := by decide
    rw [hexdump, nowhere]
    rfl
  · decide

end Mbench.SortSpeed
