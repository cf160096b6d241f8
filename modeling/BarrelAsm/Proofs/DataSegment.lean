import BarrelAsm.Proofs.Arith
import BarrelAsm.Proofs.Site

/-! The data segment: the data items of a source lie in it one behind the other, in the order of
their declarations. -/
namespace BarrelAsm

namespace DataItem

/-- The value, size and bytes that the tokens behind the name of a data declaration stand for. -/
inductive Denotes (s : Scope) : List Token → Int → Int → Text → Prop where
  | nothing : Denotes s [] 0 1 [0]
  | string {t : Token} (hk : t.kind = .string) :
      Denotes s [t] (t.text.headD 0).toNat t.text.length (t.text ++ [0])
  | zeros {t : Token} {n : Nat} (hk : t.kind = .size) (hn : Expr.size s t.text = .ok n) :
      Denotes s [t] 0 n (List.replicate n 0)
  | value {t : Token} {ts : List Token} {v : Int} {b : UInt8}
      (hk : t.kind = .identifier ∨ t.kind = .number)
      (hv : Expr.evaluate s (t :: ts) = (.ok v, [])) (hb : (b.toNat : Int) = v % 256) :
      Denotes s (t :: ts) v 1 [b]

theorem denotes_of_read {s : Scope} {ts : List Token} {item : DataItem}
    (h : DataItem.read s ts = (.ok item, [])) :
    Denotes s ts item.firstValue item.size item.bytes := by
  cases ts with
  | nil =>
    cases h
    exact .nothing
  | cons t rest =>
    unfold DataItem.read at h
    dsimp only at h
    split at h
    · cases h
    · rename_i u hu
      unfold Token.require at hu
      split_ifs at hu with hk
      cases hu
      split at h
      · rename_i hstring
        cases h
        have hfirst : (string t.text).firstValue = ((t.text.headD 0).toNat : Int) := by
          cases t.text <;> rfl
        rw [hfirst]
        exact .string hstring
      · rename_i hsize
        obtain ⟨hitem, rfl⟩ := Prod.mk.inj h
        cases hn : Expr.size s t.text with
        | error f =>
          rw [hn] at hitem
          cases hitem
        | ok n =>
          rw [hn] at hitem
          cases hitem
          lift n to Nat using Expr.size_nonneg hn
          exact .zeros hsize hn
      · rename_i hstring hsize
        have hkind : t.kind = .identifier ∨ t.kind = .number := by
          simp only [kinds, List.mem_cons, List.not_mem_nil, or_false] at hk
          tauto
        obtain ⟨v, mid, hv, hp⟩ := Stateful.bind_ok h
        obtain ⟨rfl, rfl⟩ := Reader.pure_ok hp
        exact .value hkind hv (Arith.toNat_uint8_ofInt v)

/-- The symbol of an item at a location. -/
def symbol (item : DataItem) (location : Nat) : Symbol :=
  ⟨.data, item.firstValue, item.size, location⟩

/-- The bytes of items one behind the other. -/
def bytesOf (items : List (Text × DataItem)) : Text := items.flatMap fun e => e.2.bytes

theorem bytesOf_append (xs ys : List (Text × DataItem)) :
    bytesOf (xs ++ ys) = bytesOf xs ++ bytesOf ys := List.flatMap_append

theorem bytesOf_singleton (e : Text × DataItem) : bytesOf [e] = e.2.bytes := by
  simp [bytesOf]

end DataItem

namespace Assembly

variable {a b : Assembly} {line : Line} {lines : List Line} {constants : Constants} {n : Nat}
  {items : List (Text × DataItem)}

/-- The data segment is the bytes of these items, and the data symbols stand where their items
start. -/
structure DataTiled (a : Assembly) (items : List (Text × DataItem)) : Prop where
  data : a.data.toList = DataItem.bytesOf items
  next : a.dataNext = 0x200 + a.data.size
  has : ∀ name sym, a.symbols.Has .data name sym ↔
    ∃ before e, before ++ [e] <+: items ∧
      (name = e.1 ∧ sym = e.2.symbol (0x200 + (DataItem.bytesOf before).length))

theorem Generated.data {ts : List Token} (h : Generated a line ts b) :
    b.data = a.data ∧ b.dataNext = a.dataNext := by
  cases h with
  | pseudo hk ho hp hs =>
    rw [scratchFor_eq hs]
    exact ⟨rfl, rfl⟩
  | _ => exact ⟨rfl, rfl⟩

namespace DataTiled

theorem of_eq (h : DataTiled a items) (hd : b.data = a.data) (hn : b.dataNext = a.dataNext)
    (hs : ∀ name sym, b.symbols.Has .data name sym ↔ a.symbols.Has .data name sym) :
    DataTiled b items where
  data := by rw [hd, h.data]
  next := by rw [hn, hd, h.next]
  has := fun name sym => (hs name sym).trans (h.has name sym)

theorem addData (h : DataTiled a items) {name : Text} {item : DataItem} {symbols : SymbolTable}
    (hs : a.symbols.insert name (item.symbol a.dataNext) = .ok symbols) :
    DataTiled (a.addData symbols item.bytes) (items ++ [(name, item)]) where
  data := by
    rw [DataItem.bytesOf_append, DataItem.bytesOf_singleton, ← h.data]
    simp [Assembly.addData]
  next := by
    have := h.next
    simp [Assembly.addData]
    omega
  has := by
    intro m sym
    have hnext : a.dataNext = 0x200 + (DataItem.bytesOf items).length := by
      rw [h.next, ← h.data, Array.length_toList]
    change symbols.Has .data m sym ↔ _
    rw [Source.exists_prefix_concat, ← h.has, ← hnext]
    exact SymbolTable.has_insert hs

theorem labels {ls : List Text} (h : DataTiled a items) (hb : defineLabels ls a = (b, none)) :
    DataTiled b items := by
  refine defineLabels_induction (P := fun x => DataTiled x items) hb h ?_
  intro c name sym symbols hc hk hs
  refine hc.of_eq rfl rfl fun _ _ => SymbolTable.has_insert_other hs ?_
  rw [hk]
  simp

theorem generated {ts : List Token} (h : DataTiled a items) (hb : Generated a line ts b) :
    DataTiled b items := by
  obtain ⟨hdata, hnext⟩ := hb.data
  rcases hb.symbols with he | ⟨sym, hk, hs⟩
  · exact h.of_eq hdata hnext fun _ _ => by rw [he]
  · exact h.of_eq hdata hnext fun _ _ => SymbolTable.has_insert_other hs (by simp [hk])

theorem secondPass (h : DataTiled a items) (hb : runLines secondPass lines a.restart = (b, none)) :
    DataTiled b items := by
  refine runLines_induction (P := fun _ x => DataTiled x items) hb
    (h.of_eq rfl rfl fun _ _ => Iff.rfl) ?_
  intro pre line c d _ _ hc hd
  have hrec : DataTiled (c.record (.line 2 line)) items := hc.of_eq rfl rfl fun _ _ => Iff.rfl
  rcases secondPass_ok hd with ⟨-, rfl⟩ | ⟨s, -, hg⟩
  · exact hrec
  · exact hrec.generated hg

end DataTiled

end Assembly

/-- Whether a line declares a data item. -/
def Line.isData (l : Line) : Bool := l.declares?.any fun d => d.1 = .data

namespace Assembly

variable {a b : Assembly} {line : Line} {lines : List Line} {constants : Constants}
  {items : List (Text × DataItem)}

theorem DataTiled.declared (h : DataTiled a items) (hb : Declared a line line.body b) :
    (line.isData = false ∧ DataTiled b items) ∨
      ∃ t u ts item, line.isData = true ∧ line.body = t :: u :: ts ∧
        DataItem.Denotes a.scope ts item.firstValue item.size item.bytes ∧
        DataTiled b (items ++ [(a.qualify u.text, item)]) := by
  generalize hbody : line.body = ts at hb
  cases hb with
  | @data t ts name item symbols hk hr hs =>
    obtain ⟨u, rest, rfl, -, rfl, hread⟩ := readDeclaration_ok hr
    have hdata : line.isData = true := by
      rw [Line.isData, Line.declares?_of_body hbody, hk]
      rfl
    refine .inr ⟨t, u, rest, item, hdata, rfl, DataItem.denotes_of_read hread, ?_⟩
    exact (h.addData hs).of_eq rfl rfl fun _ _ => Iff.rfl
  | register hk hr hs =>
    obtain ⟨u, rest, rfl, -, rfl, -⟩ := readDeclaration_ok hr
    refine .inl ⟨by rw [Line.isData, Line.declares?_of_body hbody, hk]; rfl, ?_⟩
    refine h.of_eq rfl rfl fun _ _ => ?_
    exact SymbolTable.has_insert_other (nameRegister_ok hs).2 (by simp)
  | const hk hp hr hs =>
    obtain ⟨u, rest, rfl, -, rfl, -⟩ := readDeclaration_ok hr
    refine .inl ⟨by rw [Line.isData, Line.declares?_of_body hbody, hk]; rfl, ?_⟩
    exact h.of_eq rfl rfl fun _ _ => SymbolTable.has_insert_other hs (by simp)
  | nothing =>
    exact .inl ⟨by rw [Line.isData, Line.declares?_of_nil hbody]; rfl, h⟩
  | opening hk | closing hk | instruction hk | pseudo hk =>
    refine .inl ⟨?_, h.of_eq rfl rfl fun _ _ => Iff.rfl⟩
    rw [Line.isData, Line.declares?_of_kind hbody (by rw [hk]; rfl)]
    rfl

end Assembly

end BarrelAsm
