import BarrelAsm.Proofs.Encoding
import BarrelAsm.Proofs.Expression

/-! The forms of native instructions. A statement is accepted if and only if its tokens have the
form of its family from the first to the last, and then its word holds what the operands stand for.
-/
namespace BarrelAsm

namespace Instruction

/-- The opcode with bit 7 set for an indirect target and bit 6 for an indirect second operand. -/
def marked (opcode : UInt8) (target second : Bool) : UInt8 :=
  opcode ||| (if target then 0x80 else 0) ||| (if second then 0x40 else 0)

end Instruction

namespace Scope

/-- The operand is the register at this location: its name or, if it is indirect, its name in
parentheses. -/
def Locates (s : Scope) (x : List Token) (location : Int) (indirect : Bool) : Prop :=
  ∃ t sym, x = [t] ∧ t.kind = (if indirect then .indirection else .identifier) ∧
    s.Resolves t.text sym ∧ sym.kind = .register ∧ sym.location = location

theorem registerNamed_ok_iff {s : Scope} {name : Text} {r : Register} :
    s.registerNamed name = .ok r ↔
      ∃ sym, s.Resolves name sym ∧ sym.kind = .register ∧ r = UInt8.ofInt sym.location := by
  unfold registerNamed
  constructor
  · intro h
    obtain ⟨sym, hs, hr⟩ := except_bind_ok h
    split_ifs at hr with hkind
    cases hr
    exact ⟨sym, lookup_ok_iff.mp hs, hkind, rfl⟩
  · rintro ⟨sym, hs, hkind, rfl⟩
    simp [lookup_ok_iff.mpr hs, hkind, bind, Except.bind, pure, Except.pure]

theorem isOperand_iff {s : Scope} {x : List Token} {o : Operand} :
    s.IsOperand x o ↔ ∃ l, s.Locates x l o.indirect ∧ o.register = UInt8.ofInt l := by
  rw [isOperand_iff_spells]
  constructor
  · rintro ⟨t, rfl, hk, hr⟩
    obtain ⟨sym, hs, hkind, hr⟩ := registerNamed_ok_iff.mp hr
    exact ⟨sym.location, ⟨t, sym, rfl, hk, hs, hkind, rfl⟩, hr⟩
  · rintro ⟨l, ⟨t, sym, rfl, hk, hs, hkind, rfl⟩, hr⟩
    exact ⟨t, rfl, hk, registerNamed_ok_iff.mpr ⟨sym, hs, hkind, hr⟩⟩

theorem Locates.isOperand {s : Scope} {x : List Token} {l : Int} {i : Bool} (h : s.Locates x l i) :
    s.IsOperand x ⟨UInt8.ofInt l, i⟩ :=
  isOperand_iff.mpr ⟨l, h, rfl⟩

end Scope

namespace Token

end Token

namespace Reader

variable {α β γ δ : Type} {x : Reader α} {y : Reader β} {z : Reader γ} {X : List Token → α → Prop}
  {Y : List Token → β → Prop} {Z : List Token → γ → Prop} {ts rest : List Token}

theorem written_tail {u mid : List Token} (h : ∀ t ∈ u ++ Token.comma :: mid, t.Written) :
    ∀ t ∈ mid, t.Written :=
  fun t ht => h t (List.mem_append_right _ (List.mem_cons_of_mem _ ht))

/-- An operand in front of a comma. -/
theorem Yields.sep (hx : x.Yields X) (hts : ∀ t ∈ ts, t.Written) {k : α → Reader β} {b : β}
    (h : (do let a ← x; comma; k a : Reader β) ts = (.ok b, rest)) :
    ∃ u mid a, ts = u ++ Token.comma :: mid ∧ X u a ∧ k a mid = (.ok b, rest) := by
  obtain ⟨a, mid, ha, hsep⟩ := Stateful.bind_ok h
  obtain ⟨c, mid', hc, rfl, hk⟩ := sep_ok hsep
  obtain ⟨u, rfl, hu⟩ := hx _ a _ ha
  -- The reader looks at the kind only, but a source line has one token of that kind.
  have hcomma : c = .comma := (hts c (by simp)).comma hc
  exact ⟨u, mid', a, by rw [hcomma], hu, hk⟩

/-- Two operands that take up all tokens. -/
theorem Yields.pair (hx : x.Yields X) (hy : y.Yields Y) (hts : ∀ t ∈ ts, t.Written)
    {g : α → β → γ} {c : γ}
    (h : (do let a ← x; comma; return g a (← y) : Reader γ) ts = (.ok c, [])) :
    ∃ u v a b, ts = Token.join [u, v] ∧ X u a ∧ Y v b ∧ c = g a b := by
  obtain ⟨u, mid, a, rfl, hu, h⟩ := hx.sep hts h
  obtain ⟨b, rest, hb, hpure⟩ := Stateful.bind_ok h
  obtain ⟨rfl, rfl⟩ := pure_ok hpure
  obtain ⟨v, rfl, hv⟩ := hy mid b [] hb
  rw [List.append_nil]
  exact ⟨u, v, a, b, rfl, hu, hv, rfl⟩

/-- Three operands that take up all tokens. -/
theorem Yields.triple (hx : x.Yields X) (hy : y.Yields Y) (hz : z.Yields Z)
    (hts : ∀ t ∈ ts, t.Written) {g : α → β → γ → δ} {d : δ}
    (h : (do let a ← x; comma; let b ← y; comma; return g a b (← z) : Reader δ) ts = (.ok d, [])) :
    ∃ u v w a b c, ts = Token.join [u, v, w] ∧ X u a ∧ Y v b ∧ Z w c ∧ d = g a b c := by
  obtain ⟨u, mid, a, rfl, hu, h⟩ := hx.sep hts h
  obtain ⟨v, w, b, c, rfl, hv, hw, rfl⟩ := hy.pair hz (written_tail hts) h
  exact ⟨u, v, w, a, b, c, rfl, hu, hv, hw, rfl⟩

end Reader

namespace Instruction

open Reader

variable {s : Scope} {m : Mnemonic} {t u r ts : List Token} {i : Instruction} {w : Word}
  {o o' : Operand} {b : UInt8}

end Instruction

namespace Assembly

variable {a b : Assembly} {line : Line} {m : Mnemonic} {ts : List Token} {w : Word}

end Assembly
end BarrelAsm
