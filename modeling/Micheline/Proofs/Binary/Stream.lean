/-
Micheline/Proofs/Binary/Stream.lean

Data that holds several expressions, one after another.  Each of them is read from the front
of what is left, so that reading data behind other data gives what reading it alone gives,
errors included (`readAll_append`).  The number of steps that the reader of all expressions
may take drops out at once: one equation for each way in which a step ends
(`readAll_of_ok`, `readAll_of_error`).

Main result: data that can be read may be taken off the front of more data, and the reader
of one expression differs from the reader of all of them only where bytes are left
(`decode_piecewise`).
-/
import Micheline.Proofs.Binary.RoundTrip

namespace Micheline.Binary

open Layout

/-! ### All expressions, step by step -/

section Reads

variable {item : Reader Node} {P : Layout → Prop} {d rest : Bytes} {n : Node}

/-- Reading a node takes bytes away. -/
theorem length_lt_of_reads (hitem : Reads item P) (h : outcome item d = (.ok n, rest)) :
    rest.length < d.length := by
  obtain ⟨l, -, -, rfl⟩ := hitem.1 h
  have hpos := List.length_pos_iff.2 (encoding_ne_nil l)
  rw [List.length_append]
  omega

/-- Steps beyond the number of bytes are never taken. -/
theorem readUntilEnd_eq_readUntilEnd (hitem : Reads item P) {fuel fuel' : Nat} {d : Bytes}
    (h : d.length ≤ fuel) (h' : d.length ≤ fuel') :
    readUntilEnd item fuel d = readUntilEnd item fuel' d := by
  induction fuel generalizing fuel' d with
  | zero =>
    obtain rfl : d = [] := List.eq_nil_of_length_eq_zero (by omega)
    rw [readUntilEnd_nil, readUntilEnd_nil]
  | succ fuel ih =>
    by_cases hd : d = []
    · rw [hd, readUntilEnd_nil, readUntilEnd_nil]
    have hpos := List.length_pos_iff.2 hd
    obtain ⟨fuel', rfl⟩ : ∃ f, fuel' = f + 1 := ⟨fuel' - 1, by omega⟩
    rcases e : outcome item d with ⟨err | n, rest⟩
    · rw [readUntilEnd_of_error hd e, readUntilEnd_of_error hd e]
    · have hlt := length_lt_of_reads hitem e
      have hrest : readUntilEnd item fuel rest = readUntilEnd item fuel' rest :=
        ih (by omega) (by omega)
      rw [readUntilEnd_of_ok hd e, readUntilEnd_of_ok hd e, hrest]

/-- Once the first node is read the rest is read as such. -/
theorem readAll_of_ok (hitem : Reads item P) (h : outcome item d = (.ok n, rest)) :
    readAll item d = (readAll item rest).map (n :: ·) := by
  have hlt := length_lt_of_reads hitem h
  have hd : d ≠ [] := List.ne_nil_of_length_pos (by omega)
  obtain ⟨fuel, hfuel⟩ : ∃ f, d.length = f + 1 := ⟨d.length - 1, by omega⟩
  rw [readAll, hfuel, readUntilEnd_of_ok hd h, readAll,
    readUntilEnd_eq_readUntilEnd hitem (by omega) (Nat.le_refl _)]

theorem readAll_of_error {e : Error} (hd : d ≠ []) (h : outcome item d = (.error e, rest)) :
    readAll item d = .error e := by
  have hpos := List.length_pos_iff.2 hd
  obtain ⟨fuel, hfuel⟩ : ∃ f, d.length = f + 1 := ⟨d.length - 1, by omega⟩
  rw [readAll, hfuel, readUntilEnd_of_error hd h]

/-- Layouts in front are read first, and then whatever follows is read as if it were alone. -/
theorem readAll_append (hitem : Reads item P) {ls : List Layout} (hls : ∀ l ∈ ls, P l)
    (b : Bytes) : readAll item (encodings ls ++ b) = (readAll item b).map (nodes ls ++ ·) := by
  induction ls with
  | nil =>
    show readAll item b = (readAll item b).map id
    rcases readAll item b with e | ms <;> rfl
  | cons l ls ih =>
    obtain ⟨hl, hls⟩ := List.forall_mem_cons.1 hls
    have hfirst : outcome item (encoding l ++ (encodings ls ++ b))
        = (.ok (node l), encodings ls ++ b) :=
      hitem.2 ⟨l, hl, rfl, rfl⟩
    rw [encodings, List.append_assoc, readAll_of_ok hitem hfirst, ih hls]
    rcases readAll item b with e | ms <;> rfl

end Reads

/-! ### One expression and all of them -/

theorem decode_of_next {d rest : Bytes} {n : Node} (h : next d = (.ok n, rest)) :
    decode d = (decode rest).map (n :: ·) :=
  readAll_of_ok (reads_readNode maxDepth) h

theorem decode_of_next_error {d rest : Bytes} {e : Error} (hd : d ≠ [])
    (h : next d = (.error e, rest)) : decode d = .error e :=
  readAll_of_error hd h

/-- A single node is decoded exactly if nothing is left behind it. -/
theorem decodeOne_eq_ok_iff {d : Bytes} {n : Node} :
    decodeOne d = .ok n ↔ next d = (.ok n, []) := by
  rw [decodeOne]
  rcases next d with ⟨e | m, - | ⟨b, rest⟩⟩ <;> simp

/-- What is read first of data that holds an expression, and what is left for the others. -/
theorem exists_next_of_decode {d : Bytes} {n : Node} {ns : List Node}
    (h : decode d = .ok (n :: ns)) : ∃ rest, next d = (.ok n, rest) ∧ decode rest = .ok ns := by
  have hd : d ≠ [] := by
    rintro rfl
    cases h
  rcases hnext : next d with ⟨e | m, rest⟩
  · rw [decode_of_next_error hd hnext] at h
    cases h
  · rw [decode_of_next hnext] at h
    obtain ⟨ms, hms, h⟩ := map_eq_ok_iff.1 h
    obtain ⟨rfl, rfl⟩ := List.cons.inj h
    exact ⟨rest, rfl, hms⟩

/-- No expression is read only where there are no bytes. -/
theorem decode_eq_ok_nil_iff {d : Bytes} : decode d = .ok [] ↔ d = [] := by
  constructor
  · intro h
    by_contra hd
    rcases hnext : next d with ⟨e | m, rest⟩
    · rw [decode_of_next_error hd hnext] at h
      cases h
    · rw [decode_of_next hnext] at h
      obtain ⟨ms, -, h⟩ := map_eq_ok_iff.1 h
      cases h
  · rintro rfl
    rfl

/-- **Reading piece by piece.**  Behind data that can be read, more data is read as if it were
alone, and fails with the error with which it fails alone.  One expression is read exactly
from the data from which all expressions that are read are this one; where there are more,
the bytes that the first one leaves are too many. -/
theorem decode_piecewise :
    (∀ (a b : Bytes) (ns : List Node), decode a = .ok ns →
        (∀ ms, decode b = .ok ms → decode (a ++ b) = .ok (ns ++ ms))
          ∧ ∀ e, decode b = .error e → decode (a ++ b) = .error e)
      ∧ (∀ (d : Bytes) (n : Node), decodeOne d = .ok n ↔ decode d = .ok [n])
      ∧ ∀ (d : Bytes) (n m : Node) (ms : List Node), decode d = .ok (n :: m :: ms) →
        ∃ first rest, d = first ++ rest ∧ decode first = .ok [n] ∧ next d = (.ok n, rest)
          ∧ decode rest = .ok (m :: ms) ∧ decodeOne d = .error (.trailingBytes rest.length) := by
  refine ⟨fun a b ns ha => ?_, fun d n => ?_, fun d n m ms h => ?_⟩
  · obtain ⟨ls, hls, rfl, rfl⟩ := decode_eq_ok_iff.1 ha
    -- layouts in front of more data are read, and the rest is read as if it were alone
    have happ : decode (encodings ls ++ b) = (decode b).map (nodes ls ++ ·) :=
      readAll_append (reads_readNode maxDepth) hls b
    refine ⟨fun ms hb => ?_, fun e hb => ?_⟩
    · rw [happ, hb]
      rfl
    · rw [happ, hb]
      rfl
  · rw [decodeOne_eq_ok_iff]
    constructor
    · intro h
      rw [decode_of_next h]
      rfl
    · intro h
      obtain ⟨rest, hnext, hrest⟩ := exists_next_of_decode h
      rwa [decode_eq_ok_nil_iff.1 hrest] at hnext
  · obtain ⟨rest, hnext, hrest⟩ := exists_next_of_decode h
    obtain ⟨l, hl, rfl, rfl⟩ := (reads_readNode maxDepth).1 hnext
    have hfirst : decode l.encoding = .ok [l.node] :=
      decode_eq_ok_iff.2 ⟨[l], by simpa using hl, rfl, (List.append_nil _).symm⟩
    refine ⟨l.encoding, rest, rfl, hfirst, hnext, hrest, ?_⟩
    have hne : rest ≠ [] := by
      rintro rfl
      cases hrest
    rw [decodeOne, hnext]
    rcases rest with - | ⟨b, rest⟩
    · exact absurd rfl hne
    · rfl

/-- A unit and an integer, then data that ends too early: the error is the one of the end
alone, and the reader of one expression stops at the three bytes behind the unit. -/
theorem decode_piecewise_unit :
    decode ([3, 11, 0, 6] ++ [1, 0, 0, 0, 2, 65]) = .error (.tooFewBytes 2 1)
      ∧ decodeOne [0, 6] = .ok (.int 6)
      ∧ decodeOne [3, 11, 0, 6] = .error (.trailingBytes 2) := by
  have ha : decode [3, 11, 0, 6] = .ok [.prim "Unit" [] [], .int 6] := by decide +kernel
  have hb : decode [1, 0, 0, 0, 2, 65] = .error (.tooFewBytes 2 1) := by decide +kernel
  have hone : decode [0, 6] = .ok [.int 6] := by decide +kernel
  have hnext : next [3, 11, 0, 6] = (.ok (.prim "Unit" [] []), [0, 6]) := by decide +kernel
  obtain ⟨first, rest, -, -, hrest, -, herr⟩ := decode_piecewise.2.2 _ _ _ _ ha
  obtain rfl : [0, 6] = rest := (Prod.mk.inj (hnext.symm.trans hrest)).2
  exact ⟨(decode_piecewise.1 _ _ _ ha).2 _ hb, (decode_piecewise.2.1 _ _).2 hone, herr⟩

end Micheline.Binary
