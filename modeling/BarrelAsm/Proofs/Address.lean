import BarrelAsm.Proofs.Listing
import Mathlib.Data.List.Chain

/-! The addresses of the words of a program. They are counted up from 0 without a gap, every way to
go through the words meets them in this order, and an address leads back to the line that it comes
from. -/
namespace BarrelAsm

namespace Loop

variable {α β σ : Type}

theorem run_append (body : α → σ → ForInStep σ) (xs ys : List α) (s : σ) :
    run body (xs ++ ys) s =
      match run body xs s with
      | .yield s => run body ys s
      | .done s => .done s := by
  induction xs generalizing s with
  | nil => rfl
  | cons x xs ih =>
    rw [List.cons_append, run, run]
    cases body x s with
    | done s => rfl
    | yield s => exact ih s

theorem run_map (body : α → σ → ForInStep σ) (f : β → α) (xs : List β) :
    run body (xs.map f) = run (fun x => body (f x)) xs := by
  funext s
  induction xs generalizing s with
  | nil => rfl
  | cons x xs ih =>
    rw [List.map_cons, run, run]
    cases body (f x) s with
    | done s => rfl
    | yield s => exact ih s

/-- To leave the inner one of two loops is to leave both. -/
theorem run_flatMap (body : α → σ → ForInStep σ) (f : β → List α) (xs : List β) (s : σ) :
    run body (xs.flatMap f) s = run (fun x => run body (f x)) xs s := by
  induction xs generalizing s with
  | nil => rfl
  | cons x xs ih =>
    rw [List.flatMap_cons, run_append, run]
    cases run body (f x) s with
    | done s => rfl
    | yield s => exact ih s

/-- Collect the items, and leave the loop with the `n`th of them. -/
def collect (n : Nat) (x : α) (xs : List α) : ForInStep (List α) :=
  if xs.length + 1 < n then .yield (xs ++ [x]) else .done (xs ++ [x])

theorem run_collect (xs : List α) {acc : List α} {n : Nat} (h : acc.length < n) :
    (run (collect n) xs acc).value = acc ++ xs.take (n - acc.length) := by
  induction xs generalizing acc with
  | nil => simp [run, ForInStep.value]
  | cons x xs ih =>
    obtain ⟨k, hk⟩ : ∃ k, n - acc.length = k + 1 := ⟨n - acc.length - 1, by omega⟩
    rw [run, collect, hk, List.take_succ_cons]
    split_ifs with hn
    · dsimp only
      rw [ih (by simpa using hn), List.length_append, List.length_singleton,
        show n - (acc.length + 1) = k by omega, List.append_assoc, List.singleton_append]
    · rw [show k = 0 by omega]
      rfl

end Loop

namespace Program

variable {σ : Type}

theorem forWords_eq (p : Program) (body : Word → σ → ForInStep σ) (s : σ) :
    p.forWords body s = Loop.run body p.words s := by
  rw [words, Loop.run_flatMap]
  rfl

theorem forCodes_eq (p : Program) (body : Int × Word → σ → ForInStep σ) (s : σ) :
    p.forCodes body s = Loop.run body p.codes s := by
  rw [codes, Loop.run_flatMap, forCodes]
  simp only [Loop.run_map]

theorem binary_eq (p : Program) : p.binary = p.words.map Word.bits := by
  have h : ∀ (ws : List Word) (bs : List UInt32),
      Loop.run (fun w bs => ForInStep.yield (bs ++ [w.bits])) ws bs =
        .yield (bs ++ ws.map Word.bits) := by
    intro ws
    induction ws with
    | nil => simp [Loop.run]
    | cons w ws ih =>
      intro bs
      rw [Loop.run]
      dsimp only
      rw [ih]
      simp
  rw [binary, forWords_eq, h]
  rfl

end Program

theorem PseudoOp.size_le (op : PseudoOp) : op.size ≤ 3 := by
  cases op <;> simp [PseudoOp.size]

theorem Line.size_le (l : Line) : l.size ≤ 3 := by
  unfold size
  split
  · exact Nat.zero_le 3
  · split
    · decide
    · rename_i t _ _ _ _
      unfold Assembly.pseudoSize
      cases PseudoOp.ofName? t.text with
      | none => exact Nat.zero_le 3
      | some op => exact op.size_le
    · exact Nat.zero_le 3

namespace Emitted

variable {lines : List Line} {ops : List Opcode}

theorem length_words_bounds (h : Emitted lines ops) :
    ∀ op ∈ ops, 1 ≤ op.words.length ∧ op.words.length ≤ 3 := by
  induction h with
  | nil => simp
  | silent _ _ ih => exact ih
  | @words lines ops line ws _ hw hs ih =>
    have hle := line.size_le
    intro op hop
    rcases List.mem_append.mp hop with hop | hop
    · exact ih op hop
    · rw [List.mem_singleton.mp hop]
      dsimp only
      omega

theorem address_head (h : Emitted lines ops) : ∀ op ∈ ops.head?, op.address = 0 := by
  induction h with
  | nil => simp
  | silent _ _ ih => exact ih
  | @words lines ops line ws h _ _ ih =>
    have hlen := h.length_words
    cases ops with
    | nil =>
      intro op hop
      cases hop
      exact congrArg Nat.cast hlen.symm
    | cons o os => exact ih

/-- The last opcode ends where the lines end. -/
theorem end_getLast (h : Emitted lines ops) :
    ∀ op ∈ ops.getLast?, op.address + op.words.length = Source.size lines := by
  induction h with
  | nil => simp
  | silent _ hs ih => simpa [hs] using ih
  | words _ hw _ _ =>
    intro op hop
    rw [List.getLast?_concat] at hop
    cases hop
    simp [hw]

theorem isChain (h : Emitted lines ops) :
    ops.IsChain fun o o' : Opcode => o'.address = o.address + o.words.length := by
  induction h with
  | nil => exact .nil
  | silent _ _ ih => exact ih
  | words h _ _ ih =>
    refine List.isChain_append.mpr ⟨ih, .singleton _, ?_⟩
    intro o ho o' ho'
    cases ho'
    exact (h.end_getLast o ho).symm

/-- Opcodes start at a word of the program, and end before the next one starts. -/
theorem pairwise (h : Emitted lines ops) :
    (∀ op ∈ ops, 0 ≤ op.address ∧ op.address + op.words.length ≤ Source.size lines) ∧
      ops.Pairwise fun o o' : Opcode => o.address + o.words.length ≤ o'.address := by
  induction h with
  | nil => simp
  | silent _ hs ih => simpa [hs] using ih
  | words h hw _ ih =>
    obtain ⟨hall, hpair⟩ := ih
    refine ⟨?_, List.pairwise_append.mpr ⟨hpair, List.pairwise_singleton _ _, ?_⟩⟩
    · intro op hop
      rw [Source.size_append, Source.size_cons]
      rcases List.mem_append.mp hop with hop | hop
      · have := hall op hop
        omega
      · rw [List.mem_singleton.mp hop]
        dsimp only
        omega
    · intro o ho o' ho'
      rw [List.mem_singleton.mp ho']
      exact (hall o ho).2

/-- Of two opcodes the first one ends before the other starts, so only one can cover an address. -/
theorem index_unique (h : Emitted lines ops) {i j k : Nat} {o o' : Opcode} (hi : ops[i]? = some o)
    (hj : ops[j]? = some o') (ho : o.address ≤ k ∧ k < o.address + o.words.length)
    (ho' : o'.address ≤ k ∧ k < o'.address + o'.words.length) : i = j := by
  obtain ⟨hil, rfl⟩ := List.getElem?_eq_some_iff.mp hi
  obtain ⟨hjl, rfl⟩ := List.getElem?_eq_some_iff.mp hj
  have hbefore := List.pairwise_iff_getElem.mp h.pairwise.2
  rcases Nat.lt_trichotomy i j with hlt | heq | hgt
  · have hend := hbefore i j hil hjl hlt
    omega
  · exact heq
  · have hend := hbefore j i hjl hil hgt
    omega

/-- Each word of a program is in one of the opcodes. -/
theorem exists_opcode (h : Emitted lines ops) {k : Nat} (hk : k < Source.size lines) :
    ∃ (i : Nat) (op : Opcode) (n : Nat) (w : Word), ops[i]? = some op ∧ op.address + n = k ∧
      op.words[n]? = some w ∧ (ops.flatMap Opcode.words)[k]? = some w := by
  induction h with
  | nil => cases hk
  | silent _ hs ih => exact ih (by simpa [hs] using hk)
  | @words lines ops line ws h hw _ ih =>
    have hlen := h.length_words
    rw [List.flatMap_append]
    rcases Nat.lt_or_ge k (Source.size lines) with hold | hnew
    · obtain ⟨i, op, n, w, hop, hn, hw, hget⟩ := ih hold
      refine ⟨i, op, n, w, ?_, hn, hw, ?_⟩
      · rw [List.getElem?_append_left (List.getElem?_eq_some_iff.mp hop).1, hop]
      · rw [List.getElem?_append_left (by omega), hget]
    · have hlt : k - Source.size lines < ws.length := by
        rw [Source.size_append, Source.size_cons, Source.size_nil] at hk
        omega
      refine ⟨ops.length, _, k - Source.size lines, _, List.getElem?_concat_length, ?_,
        List.getElem?_eq_getElem hlt, ?_⟩
      · dsimp only
        omega
      · rw [List.getElem?_append_right (by omega), hlen, List.flatMap_singleton]
        exact List.getElem?_eq_getElem hlt

end Emitted

namespace Assembly

variable {constants : Constants} {lines : List Line} {one two : Assembly}

/-- The second pass appends this opcode when it takes this line. -/
def Emits (constants : Constants) (lines : List Line) (line : Line) (op : Opcode) : Prop :=
  ∃ pre a b, pre ++ [line] <+: lines ∧ AtSecond constants lines pre a ∧
    secondPass line a = (b, none) ∧ b.opcodes = a.opcodes.push op

/-- Every opcode was emitted at the line whose number and text it has. -/
theorem exists_emits
    (hone : runLines firstPass lines (initial constants lines.length) = (one, none))
    (hcount : checkProcessCount one.processes = .ok ())
    (htwo : runLines secondPass lines one.restart = (two, none)) :
    ∀ op ∈ two.opcodes.toList, ∃ line, Emits constants lines line op ∧ op.line = line.number ∧
      op.text = line.text := by
  refine runLines_induction (P := fun _ x => ∀ op ∈ x.opcodes.toList, ∃ line,
    Emits constants lines line op ∧ op.line = line.number ∧ op.text = line.text) htwo ?_ ?_
  · have hempty : one.opcodes = #[] := firstPass_opcodes hone
    intro op hop
    change op ∈ one.opcodes.toList at hop
    rw [hempty] at hop
    cases hop
  · intro pre line c d hp hc hall hd op hop
    have hat : AtSecond constants lines pre c :=
      ⟨(List.prefix_append _ _).trans hp, one, hone, hcount, hc⟩
    rcases secondPass_ok hd with ⟨-, rfl⟩ | ⟨s, hs, hg⟩
    · exact hall op hop
    · rw [← Line.body_of_some hs] at hg
      rcases hg.opcodes with ⟨-, he⟩ | ⟨ws, -, -, he⟩
      · rw [he] at hop
        exact hall op hop
      · rw [he, Array.toList_push] at hop
        rcases List.mem_append.mp hop with hop | hop
        · exact hall op hop
        · obtain rfl := List.mem_singleton.mp hop
          exact ⟨line, ⟨pre, c, d, hp, hat, hd, he⟩, rfl, rfl⟩

end Assembly

/-- The end of an opcode can only wrap to an address before it, so nothing outside is covered. -/
theorem Opcode.lt_of_covers {op : Opcode} (h0 : 0 ≤ op.address) {address : Int}
    (h : op.covers address = true) :
    op.address ≤ address ∧ address < op.address + op.words.length := by
  have hwrap : Arith.add op.address op.words.length ≤ op.address + op.words.length :=
    Arith.wrap_le (by omega)
  obtain ⟨hstart, hend⟩ :
      op.address ≤ address ∧ address < Arith.add op.address op.words.length := by
    simpa [covers] using h
  exact ⟨hstart, Int.lt_of_lt_of_le hend hwrap⟩

theorem Opcode.covers_of_lt {op : Opcode} (h0 : 0 ≤ op.address)
    (hend : op.address + op.words.length < 2 ^ 63) {address : Int}
    (h : op.address ≤ address ∧ address < op.address + op.words.length) :
    op.covers address = true := by
  obtain ⟨n, hn⟩ := Int.eq_ofNat_of_zero_le h0
  have hsum : Arith.add op.address op.words.length = op.address + op.words.length := by
    rw [hn, Arith.add, ← Int.natCast_add]
    exact Arith.wrap_natCast (by omega)
  simpa [covers, hsum] using h

namespace Program

variable {p : Program} {lines : List Line}

theorem codes_eq (h : Emitted lines p.opcodes.toList) :
    p.codes = p.words.zipIdx.map fun (w, k) => (Arith.wrap k, w) := by
  rw [codes, h.codes]
  rfl

theorem codes_map_fst (h : Emitted lines p.opcodes.toList) :
    p.codes.map Prod.fst = (List.range p.words.length).map fun k : Nat => Arith.wrap k := by
  rw [codes_eq h, List.map_map, List.range_eq_range', ← List.zipIdx_map_snd, List.map_map]
  refine List.map_congr_left ?_
  rintro ⟨w, k⟩ -
  rw [Function.comp_apply, Function.comp_apply]

/-- The opcode of a word is found, and it is the only one that covers the address. -/
theorem debug?_of_lt (h : Emitted lines p.opcodes.toList) {k : Nat} (hk : k < p.words.length)
    (hfits : k + 3 < 2 ^ 63) :
    ∃ (i : Nat) (op : Opcode) (n : Nat) (w : Word), p.opcodes[i]? = some op ∧
      p.debug? k = some (op, (n : Int)) ∧ op.address + n = k ∧ op.words[n]? = some w ∧
      p.words[k]? = some w ∧
      ∀ (j : Nat) (o : Opcode), p.opcodes[j]? = some o → o.address ≤ k →
        k < o.address + o.words.length → j = i := by
  have hlen : p.words.length = Source.size lines := h.length_words
  obtain ⟨hall, -⟩ := h.pairwise
  obtain ⟨i, op, n, w, hop, hn, hw, hget⟩ := h.exists_opcode (hlen ▸ hk)
  have hlt := (List.getElem?_eq_some_iff.mp hw).1
  have hmem := List.mem_of_getElem? hop
  have hstart := (hall op hmem).1
  have hthree := (h.length_words_bounds op hmem).2
  have hin : op.address ≤ k ∧ k < op.address + op.words.length := by omega
  refine ⟨i, op, n, w, by simpa using hop, ?_, hn, hw, hget, ?_⟩
  · obtain ⟨o, ho⟩ : ∃ o, p.opcodes.toList.find? (·.covers k) = some o := by
      rw [← Option.isSome_iff_exists, List.find?_isSome]
      exact ⟨op, hmem, Opcode.covers_of_lt hstart (by omega) hin⟩
    have hmem' := List.mem_of_find?_eq_some ho
    obtain ⟨j, hj⟩ := List.getElem?_of_mem hmem'
    have hfound := Opcode.lt_of_covers (hall o hmem').1 (by simpa using List.find?_some ho)
    obtain rfl := h.index_unique hop hj hin hfound
    rw [hop] at hj
    cases hj
    have hsub : (k : Int) - op.address = n := by omega
    rw [debug?, ← Array.find?_toList, ho, Option.map_some, Arith.sub, hsub,
      Arith.wrap_natCast (by omega)]
  · intro j o hj hle hend
    exact (h.index_unique hop (by simpa using hj) hin ⟨hle, hend⟩).symm

theorem debug?_eq_none (h : Emitted lines p.opcodes.toList) {address : Int}
    (ha : ¬(0 ≤ address ∧ address < p.words.length)) : p.debug? address = none := by
  have hlen : p.words.length = Source.size lines := h.length_words
  obtain ⟨hall, -⟩ := h.pairwise
  have hnone : p.opcodes.toList.find? (·.covers address) = none := by
    refine List.find?_eq_none.mpr fun o ho hcovers => ?_
    obtain ⟨hstart, hend⟩ := hall o ho
    have hin := Opcode.lt_of_covers hstart hcovers
    omega
  rw [debug?, ← Array.find?_toList, hnone]
  rfl

end Program

/-- The opcodes of a program follow each other without a gap. The loops over its words meet them at
the addresses from 0 on, wherever they are left. The address of a word leads to the one opcode that
holds it and to the line that this was emitted for, as long as the opcode ends within 64 bits; any
other address leads nowhere. -/
theorem words_addressed {constants : Constants} {texts : List Text} {a : Assembly}
    {program : Program} (h : Assembly.run constants (Line.ofTexts texts) = (a, .ok program)) :
    (∀ op ∈ program.opcodes.toList.head?, op.address = 0) ∧
    program.opcodes.toList.IsChain (fun o o' : Opcode => o'.address = o.address + o.words.length) ∧
    (∀ op ∈ program.opcodes.toList, 1 ≤ op.words.length ∧ op.words.length ≤ 3) ∧
    program.codes.map Prod.fst =
      (List.range program.words.length).map (fun k : Nat => Arith.wrap k) ∧
    (program.words.length ≤ 2 ^ 63 →
      program.codes.map Prod.fst = (List.range program.words.length).map Int.ofNat) ∧
    program.codes.map Prod.snd = program.words ∧
    program.binary = program.words.map Word.bits ∧
    (∀ n, 0 < n → (program.forCodes (Loop.collect n) []).value = program.codes.take n ∧
      (program.forWords (Loop.collect n) []).value = program.words.take n) ∧
    (∀ k < program.words.length, k + 3 < 2 ^ 63 →
      ∃ (i : Nat) (op : Opcode) (n : Nat) (w : Word) (line : Line),
        program.opcodes[i]? = some op ∧ program.debug? k = some (op, (n : Int)) ∧
        op.address + n = k ∧ op.words[n]? = some w ∧ program.binary[k]? = some w.bits ∧
        (∀ (j : Nat) (o : Opcode), program.opcodes[j]? = some o → o.address ≤ k →
          k < o.address + o.words.length → j = i) ∧
        Assembly.Emits constants (Line.ofTexts texts) line op ∧ op.line = line.number ∧
        op.text = line.text) ∧
    ∀ address : Int, ¬(0 ≤ address ∧ address < program.words.length) →
      program.debug? address = none := by
  obtain ⟨one, two, hone, hcount, htwo, -, rfl, rfl⟩ := Assembly.run_ok h
  have hem : Emitted (Line.ofTexts texts) two.program.opcodes.toList :=
    Assembly.secondPass_emitted (Assembly.firstPass_opcodes hone) htwo
  have hfst := Program.codes_map_fst hem
  refine ⟨hem.address_head, hem.isChain, hem.length_words_bounds, hfst, ?_, ?_, Program.binary_eq _,
    ?_, ?_, fun _ => Program.debug?_eq_none hem⟩
  · intro hsize
    rw [hfst]
    refine List.map_congr_left fun k hk => Arith.wrap_natCast ?_
    exact Nat.lt_of_lt_of_le (List.mem_range.mp hk) hsize
  · rw [Program.codes_eq hem, List.map_map]
    exact List.zipIdx_map_fst 0 _
  · intro n hn
    rw [Program.forCodes_eq, Program.forWords_eq, Loop.run_collect _ hn, Loop.run_collect _ hn]
    exact ⟨rfl, rfl⟩
  · intro k hk hfits
    obtain ⟨i, op, n, w, hop, hdebug, hn, hw, hget, hunique⟩ := Program.debug?_of_lt hem hk hfits
    have hmem : op ∈ two.program.opcodes.toList := List.mem_of_getElem? (by simpa using hop)
    obtain ⟨line, hline⟩ := Assembly.exists_emits hone hcount htwo op hmem
    refine ⟨i, op, n, w, line, hop, hdebug, hn, hw, ?_, hunique, hline⟩
    rw [Program.binary_eq, List.getElem?_map, hget]
    rfl

theorem words_addressed_sample :
    ∃ a program, Assembly.run {} (Line.ofTexts Source.sample) = (a, .ok program) ∧
      program.words.length = 10 ∧
      program.codes.map Prod.fst = [0, 1, 2, 3, 4, 5, 6, 7, 8, 9] ∧
      (program.forCodes (Loop.collect 4) []).value = program.codes.take 4 ∧
      (∃ op line, program.debug? 4 = some (op, 1) ∧
        Assembly.Emits {} (Line.ofTexts Source.sample) line op ∧ op.text = line.text) ∧
      program.debug? 10 = none := by
  obtain ⟨a, program, h⟩ := Source.run_sample
  have hops : (Assembly.run {} (Line.ofTexts Source.sample)).2.toOption.map
      (fun p => (p.words.length, p.debug? 4 |>.map Prod.snd)) = some (10, some 1) := by
    decide +kernel
  rw [h] at hops
  obtain ⟨hlen, hindex⟩ := Prod.mk.inj (Option.some.inj hops)
  obtain ⟨-, -, -, hfst, -, -, -, hstop, hfind, hnone⟩ := words_addressed h
  rw [hlen] at hfst
  refine ⟨a, program, h, hlen, hfst, (hstop 4 (by decide)).1, ?_, hnone 10 (by rw [hlen]; decide)⟩
  obtain ⟨i, op, n, w, line, -, hdebug, -, -, -, -, hemits, -, htext⟩ :=
    hfind 4 (by rw [hlen]; decide) (by decide)
  change program.debug? 4 = _ at hdebug
  rw [hdebug] at hindex
  cases hindex
  exact ⟨op, line, hdebug, hemits, htext⟩

end BarrelAsm
