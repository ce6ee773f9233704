/-
Micheline/Proofs/Binary/Cursor.lean

What a cursor does when expressions are read from it, one by one, whether they can be read
or not.  A step of a cursor follows a reader (`Follows`): it has the same outcome, and the
cursor moves on by as many bytes as the reader takes.  This is shown for the three pieces and
carries over to all that is put together from them.  So the levels that a cursor enters and
leaves are the levels that a reader is given (`follows_node`), and what is known of readers
holds of cursors: what they leave is the end of what was there, and what they read is a layout
that stood in front of it.

Main result: a cursor stays within its data and on its level, and what it reads takes at
least two bytes for each expression, so that it comes to the end of any data
(`reads_within`).
-/
import Micheline.Binary.Cursor
import Micheline.Proofs.Binary.Stream

namespace Micheline.Binary

variable {α β : Type}

namespace Cursor

/-! ### Moving on -/

theorem length_rest (c : Cursor) : c.rest.length = c.remaining := by
  rw [rest, List.length_drop, remaining]

@[simp] theorem data_advance (c : Cursor) (n : Nat) : (c.advance n).data = c.data := rfl

@[simp] theorem depth_advance (c : Cursor) (n : Nat) : (c.advance n).depth = c.depth := rfl

@[simp] theorem offset_advance (c : Cursor) (n : Nat) :
    (c.advance n).offset = c.offset + n := rfl

theorem remaining_advance (c : Cursor) (n : Nat) :
    (c.advance n).remaining = c.remaining - n := by
  simp only [remaining, data_advance, offset_advance]
  omega

theorem rest_advance (c : Cursor) (n : Nat) : (c.advance n).rest = c.rest.drop n := by
  simp only [rest, data_advance, offset_advance, List.drop_drop]

theorem advance_advance (c : Cursor) (m n : Nat) :
    (c.advance m).advance n = c.advance (m + n) := by
  simp only [advance, Nat.add_assoc]

end Cursor

/-! ### Steps follow readers -/

open Cursor

/-- At some depth, a step does what a reader does with the bytes that are left: it has the
same outcome, and the cursor moves on, on its level, by as many bytes as the reader takes,
which were there to be taken. -/
def Follows (depth : Nat) (step : Step α) (x : Reader α) : Prop :=
  ∀ c : Cursor, c.depth = depth → ∃ used ≤ c.remaining,
    step.run.run c = ((outcome x c.rest).1, c.advance used)
      ∧ (outcome x c.rest).2 = c.rest.drop used

section Follows

variable {depth : Nat}

theorem follows_pure (a : α) : Follows depth (pure a) (pure a) :=
  fun _ _ => ⟨0, Nat.zero_le _, rfl, rfl⟩

theorem follows_throw (e : Error) : Follows depth (throw e : Step α) (throw e : Reader α) :=
  fun _ _ => ⟨0, Nat.zero_le _, rfl, rfl⟩

/-- Steps in sequence: the second runs where the first left the cursor, unless that failed. -/
theorem run_bind (step : Step α) (f : α → Step β) (c : Cursor) :
    (step >>= f).run.run c = match step.run.run c with
      | (.ok a, c) => (f a).run.run c
      | (.error e, c) => (.error e, c) := by
  simp only [ExceptT.run_bind, StateT.run_bind]
  rcases step.run.run c with ⟨_ | _, c⟩ <;> rfl

/-- Steps that follow readers do so in sequence; the counts add up. -/
theorem Follows.bind {step : Step α} {x : Reader α} {f : α → Step β} {g : α → Reader β}
    (h : Follows depth step x) (hf : ∀ a, Follows depth (f a) (g a)) :
    Follows depth (step >>= f) (x >>= g) := by
  intro c hd
  obtain ⟨used, hused, hrun, hrest⟩ := h c hd
  rw [run_bind, hrun, outcome_bind]
  rcases hx : outcome x c.rest with ⟨e | a, rest⟩
  · rw [hx] at hrest
    exact ⟨used, hused, rfl, hrest⟩
  · -- what the second one takes comes on top
    rw [hx] at hrest
    obtain rfl : rest = (c.advance used).rest := hrest.trans (rest_advance c used).symm
    obtain ⟨more, hmore, hrun', hrest'⟩ := hf a (c.advance used) hd
    rw [remaining_advance] at hmore
    rw [advance_advance] at hrun'
    rw [rest_advance, List.drop_drop, ← rest_advance] at hrest'
    exact ⟨used + more, by omega, hrun', hrest'⟩

/-! ### Pieces -/

/-- A step that looks at the cursor runs with what it sees. -/
theorem run_get_bind (f : Cursor → Step α) (c : Cursor) :
    (get >>= f).run.run c = (f c).run.run c := rfl

theorem follows_readByte : Follows depth readByte readByte := by
  intro c _
  have hrun : (readByte : Step UInt8).run.run c = _ := run_get_bind _ c
  have hfirst : c.data[c.offset]? = c.rest.head? := by
    rw [rest, List.head?_drop]
  rw [hrun, hfirst]
  rcases hrest : c.rest with - | ⟨b, rest⟩
  · exact ⟨0, Nat.zero_le _, rfl, rfl⟩
  · have hlen := length_rest c
    rw [hrest, List.length_cons] at hlen
    exact ⟨1, by omega, rfl, rfl⟩

theorem follows_readExactly (n : Nat) : Follows depth (readExactly n) (readExactly n) := by
  intro c _
  have hrun : (readExactly n : Step Bytes).run.run c = _ := run_get_bind _ c
  rw [hrun, outcome_readExactly, List.length_take, length_rest]
  by_cases h : c.remaining < n
  · rw [if_pos h, if_neg (by omega)]
    exact ⟨0, Nat.zero_le _, rfl, rfl⟩
  · rw [if_neg h, if_pos (by omega)]
    exact ⟨n, by omega, rfl, rfl⟩

theorem follows_readInt : Follows depth readInt readInt := by
  intro c _
  have hrun : (readInt : Step Int).run.run c = _ := run_get_bind _ c
  rw [hrun, outcome_readInt, Integer.read]
  rcases h : Integer.decode c.rest with e | ⟨value, used⟩
  · exact ⟨0, Nat.zero_le _, rfl, rfl⟩
  · have hused : used ≤ c.rest.length := (Integer.decode_front.2 c.rest).2.2 value used h |>.2.1
    rw [length_rest] at hused
    exact ⟨used, hused, rfl, rfl⟩

theorem follows_readSized : Follows depth readSized readSized :=
  (follows_readExactly 4).bind fun _ => follows_readExactly _

theorem follows_readText : Follows depth readText readText := by
  refine follows_readSized.bind fun data => ?_
  cases Utf8.decode? data with
  | none => exact follows_throw _
  | some text => exact follows_pure text

theorem follows_readAnnots : Follows depth readAnnots readAnnots :=
  follows_readText.bind fun _ => follows_pure _

theorem follows_readKeyword : Follows depth readKeyword readKeyword := by
  refine follows_readByte.bind fun code => ?_
  cases Keyword.name? code.toNat with
  | none => exact follows_throw _
  | some name => exact follows_pure name

/-! ### Expressions -/

theorem Follows.many {item : Step Node} {x : Reader Node} (h : Follows depth item x) (n : Nat) :
    Follows depth (readMany item n) (readMany x n) := by
  induction n with
  | zero => exact follows_pure _
  | succ n ih => exact h.bind fun _ => ih.bind fun _ => follows_pure _

/-- The loop over a body reads what the reader reads of its bytes. -/
theorem untilEnd_of_follows {item : Step Node} {x : Reader Node} (h : Follows depth item x)
    {fuel : Nat} {c : Cursor} (hd : c.depth = depth) :
    untilEnd item fuel c = readUntilEnd x fuel c.rest := by
  induction fuel generalizing c with
  | zero => rfl
  | succ fuel ih =>
    have hempty : c.isEmpty = c.rest.isEmpty := by
      rw [isEmpty, ← length_rest]
      cases c.rest <;> rfl
    have hout : x.run.run c.rest = outcome x c.rest := rfl
    obtain ⟨used, -, hrun, hrest⟩ := h c hd
    rw [untilEnd, readUntilEnd, hempty, hrun, hout]
    rcases hx : outcome x c.rest with ⟨e | n, rest⟩
    · rfl
    · rw [hx] at hrest
      obtain rfl : rest = (c.advance used).rest := hrest.trans (rest_advance c used).symm
      -- Both loops stop with the same fuel, so nothing is said about how much of it is needed.
      have hmore : untilEnd item fuel (c.advance used)
          = readUntilEnd x fuel (c.advance used).rest := ih hd
      simp only [hmore]

theorem Follows.all {item : Step Node} {x : Reader Node} (h : Follows depth item x)
    (body : Bytes) :
    Follows depth (Cursor.all item body) (readNode.liftExcept (readAll x body)) := by
  intro c hd
  have hbody : untilEnd item body.length (nested body c.depth) = readAll x body :=
    untilEnd_of_follows h hd
  refine ⟨0, Nat.zero_le _, ?_, rfl⟩
  rw [outcome_liftExcept, ← hbody]
  rfl

theorem run_below (step : Step α) {c : Cursor} (h : c.depth < maxDepth) :
    (below step).run.run c
      = let (outcome, c') := step.run.run { c with depth := c.depth + 1 }
        (outcome, { c' with depth := c'.depth - 1 }) := by
  show (if maxDepth ≤ c.depth then _ else _ : Step α).run.run c = _
  rw [if_neg (Nat.not_le.2 h)]
  rfl

/-- On the level after the next step, a step one level down is the step that the reader does
one level down. -/
theorem Follows.below {step : Step α} {x : Reader α} (h : Follows (depth + 1) step x)
    (hd : depth < maxDepth) : Follows depth (Cursor.below step) x := by
  rintro c rfl
  obtain ⟨used, hused, hrun, hrest⟩ := h { c with depth := c.depth + 1 } rfl
  refine ⟨used, hused, ?_, hrest⟩
  rw [run_below step hd, hrun]
  rfl

/-- At the limit, a step that goes deeper fails at once. -/
theorem follows_below_of_le {step : Step α} (hd : maxDepth ≤ depth) :
    Follows depth (Cursor.below step) (throw (.tooDeep maxDepth)) := by
  rintro c rfl
  show ∃ used ≤ c.remaining, (if maxDepth ≤ c.depth then _ else _ : Step α).run.run c = _ ∧ _
  rw [if_pos hd]
  exact follows_throw _ c rfl

/-- The dispatch on the tag reads alike, with one item read deeper and a body read to its end. -/
theorem Follows.tagged {item : Step Node} {x : Reader Node} (h : Follows depth item x) :
    Follows depth (readTagged item (Cursor.all item))
      (readTagged x fun body => readNode.liftExcept (readAll x body)) := by
  rw [readTagged, readTagged]
  refine follows_readByte.bind fun tag => ?_
  generalize tag.toNat = t
  split
  next => exact follows_readInt.bind fun _ => follows_pure _
  next => exact follows_readText.bind fun _ => follows_pure _
  next => exact follows_readSized.bind fun body => (h.all body).bind fun _ => follows_pure _
  next => exact follows_readSized.bind fun _ => follows_pure _
  next =>
    exact follows_readKeyword.bind fun name => follows_readSized.bind fun body =>
      (h.all body).bind fun args => follows_readAnnots.bind fun _ => follows_pure _
  next =>
    split
    next =>
      refine follows_readKeyword.bind fun name => (h.many _).bind fun args => ?_
      split
      next => exact follows_readAnnots.bind fun _ => follows_pure _
      next => exact (follows_pure _).bind fun _ => follows_pure _
    next => exact follows_throw _

/-- **A cursor reads what a reader reads** that may go down as many levels as there are below
the cursor. -/
theorem follows_node {fuel : Nat} (h : maxDepth ≤ depth + fuel) :
    Follows depth (node fuel) (readNode (maxDepth - depth)) := by
  induction fuel generalizing depth with
  | zero =>
    have hzero : maxDepth - depth = 0 := by omega
    rw [hzero]
    exact follows_throw _
  | succ fuel ih =>
    rcases Nat.lt_or_ge depth maxDepth with hd | hd
    · have hsucc : maxDepth - depth = maxDepth - (depth + 1) + 1 := by omega
      rw [hsucc]
      exact (ih (by omega)).tagged.below hd
    · have hzero : maxDepth - depth = 0 := by omega
      rw [hzero]
      exact follows_below_of_le hd

end Follows

/-! ### How many expressions there are -/

theorem length_digits_pos {value : Int} {digits : Bytes}
    (h : Integer.read digits = .ok (value, [])) : 0 < digits.length := by
  rcases digits with - | ⟨b, digits⟩
  · cases h
  · exact Nat.succ_pos _

namespace Layout

/-- Each node takes two bytes at least. -/
theorem two_mul_countAll_le {ls : List Layout}
    (h : ∀ l ∈ ls, 2 * l.node.count ≤ l.encoding.length) :
    2 * Node.countAll (nodes ls) ≤ (encodings ls).length := by
  induction ls with
  | nil => exact Nat.zero_le _
  | cons l ls ih =>
    obtain ⟨hl, hls⟩ := List.forall_mem_cons.1 h
    have hrest := ih hls
    rw [nodes, Node.countAll, encodings, List.length_append]
    omega

/-- An expression takes two bytes at least, its parts aside. -/
theorem IsSound.two_mul_count_le {l : Layout} (h : l.IsSound) :
    2 * l.node.count ≤ l.encoding.length := by
  induction h with
  | int h =>
    have hpos := length_digits_pos h
    simp only [node, Node.count, encoding, List.length_cons]
    omega
  | string h | bytes h =>
    simp only [node, Node.count, encoding, List.length_cons, length_sized]
    omega
  | @seq items _ _ ih =>
    have hitems := two_mul_countAll_le ih
    simp only [node, Node.count, encoding, List.length_cons, length_sized]
    omega
  | @prim name code args blob _ _ _ _ ih =>
    have hargs := two_mul_countAll_le ih
    simp only [node, Node.count, encoding, List.length_cons, List.length_append]
    omega
  | @general name code args blob _ _ _ _ ih =>
    have hargs := two_mul_countAll_le ih
    simp only [node, Node.count, encoding, List.length_cons, List.length_append, length_sized]
    omega

end Layout

theorem two_mul_countAll_le_of_decode {d : Bytes} {ns : List Node} (h : decode d = .ok ns) :
    2 * Node.countAll ns ≤ d.length := by
  obtain ⟨ls, hls, rfl, rfl⟩ := decode_eq_ok_iff.1 h
  exact Layout.two_mul_countAll_le fun l hl => (hls l hl).1.two_mul_count_le

namespace Cursor

/-! ### One read -/

/-- How many levels an expression at the cursor may nest. -/
def levels (c : Cursor) : Nat :=
  maxDepth - c.depth

section Read

variable {c : Cursor} {n : Node}

/-- A read yields what the reader yields of the rest, and moves the cursor by what was used. -/
theorem read_eq (c : Cursor) :
    ∃ used ≤ c.remaining,
      c.read = ((outcome (readNode c.levels) c.rest).1, c.advance used)
        ∧ (outcome (readNode c.levels) c.rest).2 = c.rest.drop used :=
  follows_node (Nat.le_add_left _ _) c rfl

/-- What a read moves: the place in the data, onwards and not beyond its end. -/
theorem exists_advance_read (c : Cursor) : ∃ used ≤ c.remaining, c.read.2 = c.advance used := by
  obtain ⟨used, hused, hread, -⟩ := read_eq c
  exact ⟨used, hused, by rw [hread]⟩

theorem data_read (c : Cursor) : c.read.2.data = c.data := by
  obtain ⟨used, -, h⟩ := exists_advance_read c
  rw [h, data_advance]

theorem depth_read (c : Cursor) : c.read.2.depth = c.depth := by
  obtain ⟨used, -, h⟩ := exists_advance_read c
  rw [h, depth_advance]

theorem levels_read (c : Cursor) : c.read.2.levels = c.levels := by
  rw [levels, depth_read, levels]

theorem offset_le_read (c : Cursor) : c.offset ≤ c.read.2.offset := by
  obtain ⟨used, -, h⟩ := exists_advance_read c
  rw [h, offset_advance]
  exact Nat.le_add_right _ _

theorem offset_read_le (h : c.offset ≤ c.data.length) : c.read.2.offset ≤ c.data.length := by
  obtain ⟨used, hused, hread⟩ := exists_advance_read c
  rw [hread, offset_advance]
  rw [remaining] at hused
  omega

theorem read_fst (c : Cursor) : c.read.1 = (outcome (readNode c.levels) c.rest).1 := by
  obtain ⟨used, -, h, -⟩ := read_eq c
  rw [h]

theorem rest_read (c : Cursor) : c.read.2.rest = (outcome (readNode c.levels) c.rest).2 := by
  obtain ⟨used, -, h, hrest⟩ := read_eq c
  rw [h, hrest, rest_advance]

theorem outcome_of_read (h : c.read.1 = .ok n) :
    outcome (readNode c.levels) c.rest = (.ok n, c.read.2.rest) := by
  rw [rest_read, ← h, read_fst]

/-- What is read stood in front of the bytes that are left. -/
theorem exists_layout_of_read (h : c.read.1 = .ok n) :
    ∃ l, FitsIn c.levels l ∧ l.node = n ∧ c.rest = l.encoding ++ c.read.2.rest :=
  (reads_readNode c.levels).1 (outcome_of_read h)

/-- The cursor moves by the length of the layout that was read. -/
theorem offset_of_read {l : Layout} (h : c.rest = l.encoding ++ c.read.2.rest) :
    c.read.2.offset = c.offset + l.encoding.length := by
  obtain ⟨used, hused, hread⟩ := exists_advance_read c
  have hlen := congrArg List.length h
  rw [List.length_append, length_rest, length_rest, hread, remaining_advance] at hlen
  rw [hread, offset_advance]
  omega

/-- An expression in front is read if it is no deeper than the levels below the cursor. -/
theorem read_of_encode {m : Node} {b more : Bytes} (h : encode m = .ok b)
    (hrest : c.rest = b ++ more) :
    (m.depth ≤ c.levels → c.read.1 = .ok m.respaced)
      ∧ (c.levels < m.depth → c.read.1 = .error (.tooDeep maxDepth)) := by
  obtain ⟨l, hs, rfl, hn⟩ := exists_layout_of_encode h
  have hdepth : l.node.depth = m.depth := by rw [hn, Node.depth_respaced]
  rw [read_fst, hrest]
  refine ⟨fun hd => ?_, fun hd => ?_⟩
  · have hread : outcome (readNode c.levels) (l.encoding ++ more) = (.ok l.node, more) :=
      (reads_readNode c.levels).2 ⟨l, ⟨hs, by omega⟩, rfl, rfl⟩
    rw [hread, hn]
  · obtain ⟨rest, hread⟩ := rejectsDeeper c.levels hs (by omega) more
    rw [hread]

end Read

/-! ### Many reads -/

/-- A read that keeps to its data and to its level, and that has read no more than the bytes
it took can hold. -/
structure ReadsWithin (data : Bytes) (c : Cursor) : Prop where
  forward : c.offset ≤ c.read.2.offset
  inside : c.read.2.offset ≤ data.length
  remaining : c.read.2.offset + c.read.2.remaining = data.length
  level : c.read.2.depth = 0
  /-- Expressions of a thousand levels are read and deeper ones are not. -/
  budget : ∀ {m b more}, encode m = .ok b → c.rest = b ++ more →
    (m.depth ≤ 1000 → c.read.1 = .ok m.respaced)
      ∧ (1000 < m.depth → c.read.1 = .error (.tooDeep 1000))
  progress : ∀ {n}, c.read.1 = .ok n → c.offset + 2 ≤ c.read.2.offset
  depth : ∀ {n}, c.read.1 = .ok n → n.depth ≤ 1000
  count : ∀ {n}, c.read.1 = .ok n → 2 * n.count ≤ c.read.2.offset - c.offset

/-- **One read keeps within the bounds**: it makes progress, leaves the depth and the budget as
they were, and yields no more nodes than its bytes can hold. -/
theorem readsWithin {c : Cursor} (hd : c.depth = 0) (hc : c.offset ≤ c.data.length) :
    ReadsWithin c.data c where
  forward := offset_le_read c
  inside := offset_read_le hc
  remaining := by
    have hin := offset_read_le hc
    rw [Cursor.remaining, data_read]
    omega
  level := by rw [depth_read, hd]
  budget h hrest := by
    have hlevels : c.levels = maxDepth := by
      rw [levels, hd]
      rfl
    have hread := read_of_encode h hrest
    rwa [hlevels] at hread
  progress h := by
    obtain ⟨l, hfit, -, hrest⟩ := exists_layout_of_read h
    -- the layout that was read has two bytes at least for each expression
    have hcount := hfit.1.two_mul_count_le
    have hpos := Node.count_pos l.node
    rw [offset_of_read hrest]
    omega
  depth h := by
    obtain ⟨l, hfit, rfl, -⟩ := exists_layout_of_read h
    exact Nat.le_trans hfit.2 (Nat.sub_le _ _)
  count h := by
    obtain ⟨l, hfit, rfl, hrest⟩ := exists_layout_of_read h
    have hcount := hfit.1.two_mul_count_le
    rw [offset_of_read hrest]
    omega

/-- Where any number of reads can leave a cursor. -/
theorem after_inv (reads : Nat) (c : Cursor) (hc : c.offset ≤ c.data.length) :
    (after reads c).data = c.data ∧ (after reads c).depth = c.depth
      ∧ (after reads c).offset ≤ c.data.length := by
  induction reads generalizing c with
  | zero => exact ⟨rfl, rfl, hc⟩
  | succ reads ih =>
    have hread : c.read.2.offset ≤ c.read.2.data.length := by
      rw [data_read]
      exact offset_read_le hc
    obtain ⟨hdata, hdepth, hoff⟩ := ih c.read.2 hread
    rw [data_read] at hdata hoff
    rw [depth_read] at hdepth
    exact ⟨hdata, hdepth, hoff⟩

/-! ### All of the data -/

/-- Reading from a cursor until no byte is left, however many reads that takes, comes to an
end and gives these expressions or this error. -/
inductive Exhausts : Cursor → Except Error (List Node) → Prop
  | done {c : Cursor} (h : c.isEmpty = true) : Exhausts c (.ok [])
  | stop {c : Cursor} {e : Error} (h : c.isEmpty = false) (hread : c.read.1 = .error e) :
      Exhausts c (.error e)
  | next {c : Cursor} {n : Node} {result : Except Error (List Node)} (h : c.isEmpty = false)
      (hread : c.read.1 = .ok n) (hrest : Exhausts c.read.2 result) :
      Exhausts c (result.map (n :: ·))

theorem isEmpty_iff {c : Cursor} : c.isEmpty = true ↔ c.rest = [] := by
  rw [isEmpty, ← length_rest, beq_iff_eq, List.length_eq_zero_iff]

/-- Reading one after another ends, at the end of the data or with an error. -/
theorem exhausts (c : Cursor) : Exhausts c (readAll (readNode c.levels) c.rest) := by
  -- On the length of what is left: a node takes at least one byte of it.
  induction hlen : c.rest.length using Nat.strongRecOn generalizing c with
  | ind length ih =>
    subst hlen
    rcases Bool.eq_false_or_eq_true c.isEmpty with hempty | hempty
    · rw [isEmpty_iff.1 hempty]
      exact .done hempty
    have hne : c.rest ≠ [] := fun h => by simp [isEmpty_iff.2 h] at hempty
    rcases hread : c.read.1 with e | n
    · have houtcome : outcome (readNode c.levels) c.rest = (.error e, c.read.2.rest) := by
        rw [rest_read, ← hread, read_fst]
      rw [readAll_of_error hne houtcome]
      exact .stop hempty hread
    · have houtcome := outcome_of_read hread
      have hlt := length_lt_of_reads (reads_readNode c.levels) houtcome
      rw [readAll_of_ok (reads_readNode c.levels) houtcome]
      have hrest := ih _ hlt c.read.2 rfl
      rw [levels_read] at hrest
      exact .next hempty hread hrest

/-- **Reading with a cursor.**  After any number of reads, successful or not, the next one
does not go back, nor beyond the data, and it leaves the cursor on the outermost level, so
that it goes down a thousand levels again.  What it reads took two bytes at least for each
expression in it.  So reading comes to an end on any data, on any level, and all data holds
no more expressions than half its bytes. -/
theorem reads_within (data : Bytes) :
    (∀ reads, ReadsWithin data (after reads (start data)))
      ∧ (∀ depth, Exhausts (nested data depth) (readAll (readNode (maxDepth - depth)) data))
      ∧ ∀ ns, decode data = .ok ns → Node.countAll ns ≤ data.length / 2 := by
  refine ⟨fun reads => ?_, fun depth => exhausts (nested data depth), fun ns h => ?_⟩
  · obtain ⟨hdata, hdepth, hoff⟩ := after_inv reads (start data) (Nat.zero_le _)
    have hwithin := readsWithin hdepth (hdata.symm ▸ hoff)
    rwa [hdata] at hwithin
  · have hcount := two_mul_countAll_le_of_decode h
    omega

/-- A byte that is no tag, and an integer behind it: the first read fails, and the second
one takes two bytes. -/
theorem reads_within_after_error :
    decode [0, 6] = .ok [.int 6] ∧ Node.countAll [.int 6] ≤ 1
      ∧ (after 1 (start [11, 0, 6])).read.1 = .ok (.int 6)
      ∧ (after 1 (start [11, 0, 6])).offset + 2 ≤ (after 2 (start [11, 0, 6])).offset := by
  have hone : decode [0, 6] = .ok [.int 6] := by decide +kernel
  have hread : (after 1 (start [11, 0, 6])).read.1 = .ok (.int 6) := by decide +kernel
  exact ⟨hone, (reads_within [0, 6]).2.2 _ hone, hread,
    ((reads_within [11, 0, 6]).1 1).progress hread⟩

end Cursor

end Micheline.Binary
