import BarrelAsm.Proofs.Numeral
import BarrelAsm.Proofs.PassAgreement
import BarrelAsm.Proofs.Site
import Mathlib.Data.List.Forall2

/-! The listing of a program: the entries that the two passes put in are those that can be read off
the source, its symbols and its words, line by line. -/
namespace BarrelAsm

/-- What the payload of an entry stands for. -/
inductive Payload where
  | none
  | value (v : Int)
  | word (w : Word)

/-- The text is a payload of this kind when it is read digit by digit: nothing, the low 16 bits of a
value in 4 hexadecimal digits, or a word in 8 of them. -/
def Payload.Reads : Payload → Text → Prop
  | none, t => t = []
  | value v, t => Text.HexDigits 4 t ∧ Text.hexValue? t = some (v % 2 ^ 16)
  | word w, t => Text.HexDigits 8 t ∧ Text.hexValue? t = some (w.bits.toNat : Int)

def Payload.text : Payload → Text
  | none => []
  | value v => Text.hex16 v
  | word w => w.text

theorem Payload.reads_text (p : Payload) : p.Reads p.text := by
  cases p with
  | none => rfl
  | value v =>
    have hlow : ((v % 0x10000).toNat : Int) = v % 2 ^ 16 := Int.toNat_of_nonneg (by omega)
    refine ⟨Text.hexDigits_hexNat (by decide) (by omega), ?_⟩
    rw [text, Text.hex16, Text.hexValue?_hexNat, hlow]
  | word w =>
    have hw := w.bits.toNat_lt
    exact ⟨Text.hexDigits_hexNat (by decide) (by omega), Text.hexValue?_hexNat 8 w.bits.toNat⟩

/-- An entry that is expected in a listing. -/
structure Listed where
  line : Nat
  location : Int
  payload : Payload
  text : Text

/-- The entry is as expected, with a payload that reads so. -/
structure ListingEntry.Matches (e : ListingEntry) (x : Listed) : Prop where
  line : e.line = x.line
  location : e.location = x.location
  payload : x.payload.Reads e.payload
  text : e.text = x.text

/-- The expected entry as it is written. -/
def Listed.entry (x : Listed) : ListingEntry := ⟨x.line, x.location, x.payload.text, x.text⟩

theorem Listed.matches_entry (x : Listed) : x.entry.Matches x :=
  ⟨rfl, rfl, x.payload.reads_text, rfl⟩

namespace Line

/-- What is expected of a line with one entry. -/
def listed (l : Line) (location : Int) (payload : Payload) : Listed :=
  ⟨l.number, location, payload, l.text⟩

/-- What is expected of words with their addresses: the first one has this text, and the others have
a mark in its place. -/
def listedWords (l : Line) : Text → List (Word × Nat) → List Listed
  | _, [] => []
  | text, (w, k) :: cs => ⟨l.number, k, .word w, text⟩ :: listedWords l "<________|" cs

def entry (l : Line) (location : Int) (payload : Text) : ListingEntry :=
  ⟨l.number, location, payload, l.text⟩

def wordEntries (l : Line) (text : Text) (cs : List (Word × Nat)) : List ListingEntry :=
  (l.listedWords text cs).map Listed.entry

theorem wordEntries_cons (l : Line) (text : Text) (w : Word) (k : Nat) (cs : List (Word × Nat)) :
    l.wordEntries text ((w, k) :: cs) =
      ⟨l.number, k, w.text, text⟩ :: l.wordEntries Listing.continuation cs := rfl

theorem length_wordEntries (l : Line) (text : Text) (cs : List (Word × Nat)) :
    (l.wordEntries text cs).length = cs.length := by
  induction cs generalizing text with
  | nil => rfl
  | cons c cs ih => rw [wordEntries_cons, List.length_cons, ih, List.length_cons]

/-- Whether a line is blank or all comment. -/
def isBlank (l : Line) : Bool := (Statement.ofLine? l.text).isNone

end Line

namespace Site

/-- The words of a line with their addresses. -/
def codes (words : List Word) (s : Site) : List (Word × Nat) :=
  (words.zipIdx.drop s.address).take s.line.size

/-- What is expected of a line that declares a symbol. -/
def declared? (t : SymbolTable) (s : Site) : Option Listed :=
  s.line.declares?.bind fun (kind, name) => (t.get? (s.qualify name)).map fun sym =>
    s.line.listed (if kind = .const then 0 else sym.location) (.value sym.value)

/-- What is expected of a line in the listing of a program with these symbols and words. -/
def listed (t : SymbolTable) (words : List Word) (s : Site) : List Listed :=
  if s.line.isBlank then [s.line.listed (-1) .none]
  else
    match s.line.body with
    | [] => [s.line.listed s.address .none]
    | token :: _ =>
      match token.kind with
      | .regDecl | .constDecl | .dataDecl => (s.declared? t).toList
      | .process => [s.line.listed s.address .none]
      | .endProcess => [s.line.listed (-1) .none]
      | _ => s.line.listedWords s.line.text (s.codes words)

/-- The entries of a line as they are written. -/
def entries (t : SymbolTable) (words : List Word) (s : Site) : List ListingEntry :=
  (s.listed t words).map Listed.entry

/-- What the first pass leaves in the place of a line. -/
def early (t : SymbolTable) (s : Site) : ListingEntry :=
  if s.line.isBlank then s.line.entry (-1) [] else ((s.declared? t).map Listed.entry).getD .unset

end Site

/-- The entries that are filled in. -/
def ListingEntry.filled (es : List ListingEntry) : List ListingEntry := es.filter (·.line != 0)

namespace ListingEntry

theorem filled_append (xs ys : List ListingEntry) : filled (xs ++ ys) = filled xs ++ filled ys :=
  List.filter_append ..

@[simp] theorem filled_unset : filled [.unset] = [] := rfl

theorem filled_replicate (n : Nat) : filled (List.replicate n .unset) = [] := by
  simp [filled, unset]

theorem filled_entry {l : Line} (h : 1 ≤ l.number) (location : Int) (payload : Text) :
    filled [l.entry location payload] = [l.entry location payload] := by
  have hne : l.number ≠ 0 := by omega
  simp [filled, Line.entry, hne]

theorem filled_wordEntries {l : Line} (h : 1 ≤ l.number) (text : Text) (cs : List (Word × Nat)) :
    filled (l.wordEntries text cs) = l.wordEntries text cs := by
  have hne : (l.number : Int) ≠ 0 := by omega
  induction cs generalizing text with
  | nil => rfl
  | cons c cs ih =>
    rw [Line.wordEntries_cons, filled, List.filter_cons_of_pos (by simpa using hne)]
    exact congrArg _ (ih _)

end ListingEntry

namespace Listing

variable {l l' : Listing} {xs ys : List ListingEntry} {y : ListingEntry}

/-- The entries of a listing and, behind them, places that are not filled in. -/
def Shows (l : Listing) (es : List ListingEntry) : Prop :=
  ∃ n, l.entries.toList ++ List.replicate n .unset = es

theorem Shows.filled {es : List ListingEntry} (h : Shows l es) :
    ListingEntry.filled l.entries.toList = ListingEntry.filled es := by
  obtain ⟨n, rfl⟩ := h
  rw [ListingEntry.filled_append, ListingEntry.filled_replicate, List.append_nil]

theorem shows_blank (n : Nat) : Shows ((blank? n).getD {}) (List.replicate n .unset) := by
  unfold blank?
  split_ifs
  · exact ⟨0, by simp⟩
  · exact ⟨n, by simp⟩

theorem offset_blank (n : Nat) : ((blank? n).getD {}).offset = 0 := by
  unfold blank?
  split_ifs <;> rfl

section Place

variable {line : Nat} (hline : 1 ≤ line) (hplace : line - 1 + l.offset < capacity)
include hline hplace

theorem position?_eq_some : l.position? line = some (line - 1 + l.offset) := by
  have hn : (line : Int) - 1 + l.offset = (line - 1 + l.offset : Nat) := by omega
  rw [position?, hn]
  exact if_pos ⟨Int.natCast_nonneg _, Int.ofNat_lt.mpr hplace⟩

/-- A source line has a place in any listing that can be kept. -/
theorem log?_eq_logLine (location : Int) (payload text : Text) :
    l.log? ⟨line, location, payload, text⟩ = some (l.logLine line location payload text) := by
  rw [log?, position?_eq_some hline hplace]
  rfl

theorem insert?_eq_insertLine (location : Int) (payload text : Text) :
    l.insert? ⟨line, location, payload, text⟩ = some (l.insertLine line location payload text) := by
  rw [insert?, position?_eq_some hline hplace]
  rfl

end Place

theorem Shows.reserve {es : List ListingEntry} {n : Nat} (h : Shows l es) (hn : n < es.length) :
    ∃ m, (Listing.reserve l.entries n).toList ++ List.replicate m .unset = es := by
  obtain ⟨k, rfl⟩ := h
  rw [List.length_append, Array.length_toList, List.length_replicate] at hn
  unfold Listing.reserve
  split_ifs with hlt
  · exact ⟨k, rfl⟩
  · refine ⟨k - (n + 1 - l.entries.size), ?_⟩
    rw [Array.toList_append, Array.toList_replicate, List.append_assoc,
      List.replicate_append_replicate]
    congr 2
    omega

/-- When room has been made for a place of a listing, the place is there. -/
theorem Shows.place (h : Shows l (xs ++ y :: ys)) :
    ∃ zs n, (Listing.reserve l.entries xs.length).toList = xs ++ y :: zs ∧
      zs ++ List.replicate n .unset = ys := by
  have hlen : xs.length < (xs ++ y :: ys).length := by simp
  obtain ⟨m, hm⟩ := h.reserve hlen
  have hroom := lt_size_reserve l.entries xs.length
  rw [List.append_cons] at hm
  obtain ⟨zs, hzs⟩ : xs ++ [y] <+: (Listing.reserve l.entries xs.length).toList := by
    refine List.prefix_of_prefix_length_le ⟨ys, hm.symm⟩ (List.prefix_append _ _) ?_
    rw [List.length_append, List.length_singleton, Array.length_toList]
    exact hroom
  rw [← hzs, List.append_assoc] at hm
  exact ⟨zs, m, by rw [← hzs, ← List.append_cons], List.append_cancel_left hm⟩

theorem Shows.set (h : Shows l (xs ++ y :: ys)) (e : ListingEntry) :
    Shows (l.set xs.length e) (xs ++ e :: ys) := by
  obtain ⟨zs, n, hroom, rfl⟩ := h.place
  refine ⟨n, ?_⟩
  rw [Listing.set, Array.toList_setIfInBounds, hroom]
  simp

theorem insertIdx_length_append (xs ys : List ListingEntry) (e : ListingEntry) :
    (xs ++ ys).insertIdx xs.length e = xs ++ e :: ys := by
  induction xs with
  | nil => rfl
  | cons x xs ih => simp [ih]

theorem Shows.insertAt (h : Shows l (xs ++ y :: ys)) (e : ListingEntry) :
    Shows (l.insertAt xs.length e) (xs ++ e :: y :: ys) := by
  obtain ⟨zs, n, hroom, rfl⟩ := h.place
  have hle := (lt_size_reserve l.entries xs.length).le
  refine ⟨n, ?_⟩
  rw [Listing.insertAt, Array.insertIdxIfInBounds, dif_pos hle, Array.toList_insertIdx, hroom,
    insertIdx_length_append]
  simp

theorem Shows.insertWords {line : Line} (h : Shows l (xs ++ y :: ys))
    (hn : line.number - 1 + l.offset = xs.length) (k : Nat) (text : Text) (ws : List Word) :
    Shows (l.insertWords line.number k text ws)
        (xs ++ line.wordEntries text (ws.zipIdx k) ++ y :: ys) ∧
      (l.insertWords line.number k text ws).offset = l.offset + ws.length := by
  induction ws generalizing l xs k text with
  | nil => simpa [Listing.insertWords, Line.wordEntries, Line.listedWords] using h
  | cons w ws ih =>
    have hins : Shows (l.insertLine line.number k w.text text)
        ((xs ++ [⟨line.number, k, w.text, text⟩]) ++ y :: ys) := by
      rw [insertLine, hn, List.append_assoc]
      exact h.insertAt _
    have hoff : (l.insertLine line.number k w.text text).offset = l.offset + 1 := rfl
    obtain ⟨hshow, hlater⟩ := ih hins (by rw [hoff, List.length_append, ← hn]; rfl) (k + 1)
      Listing.continuation
    rw [Listing.insertWords, List.zipIdx_cons, Line.wordEntries_cons]
    refine ⟨by simpa using hshow, ?_⟩
    rw [hlater, hoff, List.length_cons]
    omega

/-- What the second pass does to a listing when it comes to a line, in whose place is `first`, and
what is in that place afterwards. -/
inductive Fills (l : Listing) (line : Line) (first : ListingEntry) :
    Listing → List ListingEntry → Prop where
  | keep : Fills l line first l [first]
  | log (location : Int) (payload : Text) :
      Fills l line first (l.logLine line.number location payload line.text)
        [line.entry location payload]
  | insert (k : Nat) (ws : List Word) :
      Fills l line first (l.insertWords line.number k line.text ws)
        (line.wordEntries line.text (ws.zipIdx k) ++ [first])

theorem Fills.shows {line : Line} {new : List ListingEntry} (h : Fills l line y l' new)
    (hs : Shows l (xs ++ y :: ys)) (hn : line.number - 1 + l.offset = xs.length) :
    Shows l' (xs ++ new ++ ys) ∧ line.number - 1 + 1 + l'.offset = (xs ++ new).length := by
  cases h with
  | keep =>
    refine ⟨by simpa using hs, ?_⟩
    rw [List.length_append, List.length_singleton]
    omega
  | log location payload =>
    refine ⟨?_, ?_⟩
    · rw [logLine, hn, List.append_assoc]
      exact hs.set _
    · change line.number - 1 + 1 + l.offset = _
      rw [List.length_append, List.length_singleton]
      omega
  | insert k ws =>
    obtain ⟨hshow, hoff⟩ := hs.insertWords hn k line.text ws
    refine ⟨by simpa using hshow, ?_⟩
    simp only [hoff, List.length_append, Line.length_wordEntries, List.length_zipIdx,
      List.length_singleton]
    omega

end Listing

/-- The number of words of expansions that are not the first one of theirs. -/
def Source.extraWords (lines : List Line) : Nat :=
  ((lines.filterMap Line.pseudo?).map fun op => op.size - 1).sum

theorem Source.extraWords_singleton (l : Line) :
    extraWords [l] = (l.pseudo?.map fun op => op.size - 1).getD 0 := by
  unfold extraWords
  cases h : l.pseudo? <;> simp [h]

theorem Source.extraWords_append (xs ys : List Line) :
    extraWords (xs ++ ys) = extraWords xs + extraWords ys := by
  simp [extraWords]

namespace Site

variable {s : Site} {t : SymbolTable}

theorem early_of_blank (h : s.line.isBlank = true) : s.early t = s.line.entry (-1) [] := by
  rw [early, if_pos h]

theorem early_of_not_blank (h : s.line.isBlank = false) :
    s.early t = ((s.declared? t).map Listed.entry).getD .unset := by
  rw [early, h]
  rfl

/-- Of a line with an instruction its words are listed. -/
theorem entries_of_words {token : Token} {ts : List Token} (h : s.line.isBlank = false)
    (hb : s.line.body = token :: ts) (hk : token.kind = .instruction ∨ token.kind = .pseudo)
    (words : List Word) :
    s.entries t words = s.line.wordEntries s.line.text (s.codes words) := by
  unfold entries listed
  rw [h, if_neg Bool.false_ne_true, hb]
  rcases hk with hk | hk <;> simp only [hk] <;> rfl

theorem declared?_of_none (h : s.line.declares? = none) : s.declared? t = none := by
  rw [declared?, h]
  rfl

theorem declared?_of_some {kind : SymbolKind} {name : Text} {sym : Symbol}
    (h : s.line.declares? = some (kind, name)) (hs : t.get? (s.qualify name) = some sym) :
    s.declared? t =
      some (s.line.listed (if kind = .const then 0 else sym.location) (.value sym.value)) := by
  rw [declared?, h]
  simp [hs]

/-- The words of an opcode are those of its line. -/
theorem codes_of_push {before after : List Opcode} {o : Opcode}
    (hlen : (before.flatMap Opcode.words).length = s.address)
    (hsize : o.words.length = s.line.size) :
    s.codes ((before ++ o :: after).flatMap Opcode.words) = o.words.zipIdx s.address := by
  rw [codes, List.flatMap_append, List.flatMap_cons, List.zipIdx_append,
    List.drop_left' (by rw [List.length_zipIdx, hlen]), List.zipIdx_append,
    List.take_left' (by rw [List.length_zipIdx, hsize]), hlen, Nat.zero_add]

end Site

namespace Assembly

variable {a b one two : Assembly} {line : Line} {lines : List Line} {constants : Constants}
  {n : Nat} {t : SymbolTable} {xs ys : List ListingEntry}

/-- The first pass fills in the places of blank lines and of declarations. -/
theorem firstPass_listing (h : firstPass line a = (b, none)) (ht : b.symbols.entries <+: t.entries)
    (hs : a.listing.Shows (xs ++ .unset :: ys))
    (hn : line.number - 1 + a.listing.offset = xs.length) :
    b.listing.Shows (xs ++ (⟨line, a.pc, a.process⟩ : Site).early t :: ys) ∧
      b.listing.offset = a.listing.offset := by
  rcases firstPass_ok h with ⟨hnone, rfl⟩ | ⟨st, c, hst, hc, hb⟩
  · have hblank : line.isBlank = true := by rw [Line.isBlank, hnone]; rfl
    refine ⟨?_, rfl⟩
    rw [Site.early_of_blank hblank]
    change (a.listing.logLine line.number (-1) [] line.text).Shows _
    rw [Listing.logLine, hn]
    exact hs.set _
  · have hblank : line.isBlank = false := by rw [Line.isBlank, hst]; rfl
    have hlist : c.listing = a.listing := by rw [defineLabels_eq hc]; rfl
    rw [← Line.body_of_some hst] at hb
    rw [Site.early_of_not_blank hblank]
    rcases hb.symbols with ⟨hno, -, he⟩ | ⟨name, sym, hd, hins, hconst, he⟩
    · rw [Site.declared?_of_none hno, he, hlist]
      exact ⟨hs, rfl⟩
    · have hqual : c.qualify name = (⟨line, a.pc, a.process⟩ : Site).qualify name := by
        rw [defineLabels_eq hc]
        rfl
      have hget : t.get? ((⟨line, a.pc, a.process⟩ : Site).qualify name) = some sym := by
        rw [← hqual]
        exact SymbolTable.get?_of_prefix ht
          ((SymbolTable.get?_insert_iff hins).mpr (.inr ⟨rfl, rfl⟩))
      have hloc : (if sym.kind = .const then 0 else sym.location) = sym.location := by
        split_ifs with hk
        · exact (hconst hk).symm
        · rfl
      rw [Site.declared?_of_some hd hget, hloc, he]
      change (c.listing.logLine line.number _ _ line.text).Shows _ ∧ c.listing.offset = _
      rw [hlist, Listing.logLine, hn]
      exact ⟨hs.set _, rfl⟩

theorem firstPass_shows (hnum : Line.Numbered lines)
    (h : runLines firstPass lines (initial constants lines.length) = (a, none)) :
    a.listing.offset = 0 ∧ ∀ t : SymbolTable, a.symbols.entries <+: t.entries →
      a.listing.Shows ((Source.sites lines).map (Site.early t)) := by
  have hrun := runLines_induction (P := fun pre c => c.listing.offset = 0 ∧
    ∀ t : SymbolTable, c.symbols.entries <+: t.entries →
      c.listing.Shows ((Source.sites pre).map (Site.early t) ++
        List.replicate (lines.length - pre.length) .unset)) h ?_ ?_
  · simpa using hrun
  · exact ⟨Listing.offset_blank lines.length, fun t _ => Listing.shows_blank lines.length⟩
  · rintro pre line c d hp hrun ⟨hoff, hc⟩ hd
    obtain ⟨hpc, hproc⟩ := firstPass_place hrun
    have hline := hnum.number_eq hp
    have hlen := hp.length_le
    have hgrows := firstPass_grows line c
    rw [hd] at hgrows
    rw [List.length_append, List.length_singleton] at hlen ⊢
    have hroom : lines.length - pre.length = lines.length - (pre.length + 1) + 1 := by omega
    have hplace : line.number - 1 + c.listing.offset = pre.length := by omega
    rw [hroom, List.replicate_succ] at hc
    have hstep := fun (t : SymbolTable) (ht : d.symbols.entries <+: t.entries) =>
      firstPass_listing hd ht (hc t (hgrows.entries_grow.trans ht)) (by simpa using hplace)
    rw [hpc, hproc] at hstep
    refine ⟨?_, fun t ht => ?_⟩
    · rw [(hstep d.symbols (List.prefix_refl _)).2, hoff]
    · simpa using (hstep t ht).1

theorem exists_declared (hone : runLines firstPass lines (initial constants n) = (one, none))
    {s : Site} (hs : s ∈ Source.sites lines) {token : Token} {ts : List Token} {kind : SymbolKind}
    (hb : s.line.body = token :: ts) (hk : token.kind.declares? = some kind)
    (ht : one.symbols.entries <+: t.entries) :
    ∃ location payload, s.declared? t = some (s.line.listed location payload) := by
  obtain ⟨pre, hp, -⟩ := Source.mem_sites_iff.mp hs
  obtain ⟨c, d, -, -, hd, -⟩ := runLines_at_ok hp hone
  rcases firstPass_ok hd with ⟨hnone, -⟩ | ⟨st, e, hst, -, hdecl⟩
  · rw [Line.body_of_none hnone] at hb
    cases hb
  · rw [← Line.body_of_some hst, hb] at hdecl
    obtain ⟨u, us, rfl, -⟩ := hdecl.exists_identifier hk
    have hdeclares : s.line.declares? = some (kind, u.text) := by
      rw [Line.declares?_of_body hb, hk]
      rfl
    obtain ⟨sym, hget, -⟩ := get?_of_declares hone hs hdeclares
    exact ⟨_, _, Site.declared?_of_some hdeclares (SymbolTable.get?_of_prefix ht hget)⟩

/-- What the second pass leaves in the place of a line is what is read off the source, and there is
one entry more for each further word of an expansion. -/
theorem Generated.fills {s : Site} {words : List Word} (h : Generated a s.line s.line.body b)
    (hblank : s.line.isBlank = false) (hpc : a.pc = s.address) (hnum : 1 ≤ s.line.number)
    (hdecl : ∀ token ts kind, s.line.body = token :: ts → token.kind.declares? = some kind →
      ∃ location payload, s.declared? t = some (s.line.listed location payload))
    (hcodes : ∀ ws, ws.length = s.line.size →
      b.opcodes = a.opcodes.push ⟨s.line.number, a.pc, ws, s.line.text⟩ →
      s.codes words = ws.zipIdx s.address) :
    ∃ new, a.listing.Fills s.line (s.early t) b.listing new ∧
      ListingEntry.filled new = s.entries t words ∧
      (s.entries t words).length = 1 + Source.extraWords [s.line] := by
  have hearly := Site.early_of_not_blank (t := t) hblank
  rw [Source.extraWords_singleton, Line.pseudo?]
  generalize hb : s.line.body = body at h
  cases h with
  | lone =>
    have hentries : s.entries t words = [s.line.entry s.address []] := by
      rw [Site.entries, Site.listed, hblank, if_neg Bool.false_ne_true, hb]
      rfl
    rw [hentries, ← hpc]
    exact ⟨_, .log a.pc [], ListingEntry.filled_entry hnum _ _, rfl⟩
  | opening hk =>
    have hentries : s.entries t words = [s.line.entry s.address []] := by
      rw [Site.entries, Site.listed, hblank, if_neg Bool.false_ne_true, hb]
      simp only [hk]
      rfl
    rw [hentries, ← hpc]
    exact ⟨_, .log a.pc [], ListingEntry.filled_entry hnum _ _, by simp [hk]⟩
  | closing hk =>
    have hentries : s.entries t words = [s.line.entry (-1) []] := by
      rw [Site.entries, Site.listed, hblank, if_neg Bool.false_ne_true, hb]
      simp only [hk]
      rfl
    rw [hentries]
    exact ⟨_, .log (-1) [], ListingEntry.filled_entry hnum _ _, by simp [hk]⟩
  | @declaration token ts hk =>
    obtain ⟨kind, hkind⟩ : ∃ kind, token.kind.declares? = some kind := by
      rcases hk with hk | hk | hk <;> exact ⟨_, by rw [hk]; rfl⟩
    obtain ⟨location, payload, he⟩ := hdecl token ts kind hb hkind
    have hentries : s.entries t words = [s.line.entry location payload.text] := by
      rw [Site.entries, Site.listed, hblank, if_neg Bool.false_ne_true, hb, he]
      rcases hk with hk | hk | hk <;> simp only [hk] <;> rfl
    have hkeep : s.early t = s.line.entry location payload.text := by
      rw [hearly, he]
      rfl
    rw [hentries, hkeep]
    refine ⟨_, .keep, ListingEntry.filled_entry hnum _ _, ?_⟩
    rcases hk with hk | hk | hk <;> simp [hk]
  | @instruction token ts m i hk hm hi =>
    have hword := hcodes [i.word] (by simp [Line.size, hb, hk]) rfl
    rw [Site.entries_of_words hblank hb (.inl hk), hword]
    refine ⟨_, .log a.pc i.word.text, ?_, ?_⟩
    · rw [ListingEntry.filled_entry hnum, hpc]
      rfl
    · simp only [hk]
      rfl
  | @pseudo token ts op p c r hk ho hp hs =>
    obtain ⟨hcpc, -, hops⟩ := scratchFor_place hs
    have hlist : c.listing = a.listing := by rw [scratchFor_eq hs]
    have hsize : (p.words r).length = op.size := by
      rw [Pseudo.length_words, Pseudo.op_of_read hp]
    have hwords := hcodes (p.words r)
      (by rw [hsize]; simp [Line.size, hb, hk, pseudoSize, ho]) (by rw [← hops, ← hcpc]; rfl)
    have hunset : s.early t = .unset := by
      rw [hearly, Site.declared?_of_none (Line.declares?_of_kind hb (by rw [hk]; rfl))]
      rfl
    rw [Site.entries_of_words hblank hb (.inr hk), hwords]
    refine ⟨s.line.wordEntries s.line.text ((p.words r).zipIdx s.address) ++ [s.early t],
      ?_, ?_, ?_⟩
    · rw [← hlist, ← hpc, ← hcpc]
      exact .insert c.pc _
    · rw [hunset, ListingEntry.filled_append, ListingEntry.filled_wordEntries hnum,
        ListingEntry.filled_unset, List.append_nil]
    · have hpos := op.size_pos
      rw [Line.length_wordEntries, List.length_zipIdx, hsize]
      simp only [hk, ho, if_true, Option.map_some, Option.getD_some]
      omega

theorem secondPass_fills (hone : runLines firstPass lines (initial constants n) = (one, none))
    (htwo : runLines secondPass lines one.restart = (two, none)) (hnum : Line.Numbered lines)
    {pre : List Line} (hp : pre ++ [line] <+: lines)
    (ha : runLines secondPass pre one.restart = (a, none)) (hb : secondPass line a = (b, none)) :
    ∃ new, a.listing.Fills line ((⟨line, Source.size pre, Source.process pre⟩ : Site).early
        two.symbols) b.listing new ∧
      ListingEntry.filled new = (⟨line, Source.size pre, Source.process pre⟩ : Site).entries
        two.symbols two.program.words ∧
      ((⟨line, Source.size pre, Source.process pre⟩ : Site).entries two.symbols
        two.program.words).length = 1 + Source.extraWords [line] := by
  have hline := hnum.number_eq hp
  rcases secondPass_ok hb with ⟨hnone, rfl⟩ | ⟨st, hst, hg⟩
  · have hblank : line.isBlank = true := by rw [Line.isBlank, hnone]; rfl
    refine ⟨_, .keep, ?_, ?_⟩
    · rw [Site.early_of_blank hblank, ListingEntry.filled_entry (by dsimp only; omega),
        Site.entries, Site.listed, if_pos hblank]
      rfl
    · rw [Site.entries, Site.listed, if_pos hblank]
      simp [Source.extraWords, Line.pseudo?, Line.body_of_none hnone]
  · have hblank : line.isBlank = false := by rw [Line.isBlank, hst]; rfl
    obtain ⟨hpc, -⟩ := secondPass_place ha
    rw [← Line.body_of_some hst] at hg
    refine Generated.fills (a := a.record (.line 2 line))
      (s := ⟨line, Source.size pre, Source.process pre⟩) hg hblank hpc (by dsimp only; omega) ?_ ?_
    · intro token ts kind hbody hk
      have hs : (⟨line, Source.size pre, Source.process pre⟩ : Site) ∈ Source.sites lines :=
        Source.mem_sites_iff.mpr ⟨pre, hp, rfl, rfl⟩
      exact exists_declared hone hs hbody hk (runLines_grows_ok secondPass_grows htwo).entries_grow
    · intro ws hws hpush
      obtain ⟨c, d, post, hc, hd, hlater⟩ := runLines_at_ok hp htwo
      rw [ha] at hc
      cases hc
      rw [hb] at hd
      cases hd
      obtain ⟨later, hops⟩ := secondPass_opcodes_grow hlater
      rw [hpush, Array.toList_push, List.append_assoc] at hops
      have hem := secondPass_emitted (firstPass_opcodes hone) ha
      rw [words_program, ← hops]
      exact Site.codes_of_push hem.length_words hws

theorem secondPass_shows (hnum : Line.Numbered lines)
    (hone : runLines firstPass lines (initial constants lines.length) = (one, none))
    (htwo : runLines secondPass lines one.restart = (two, none)) :
    ∃ es, two.listing.Shows es ∧ ListingEntry.filled es =
        (Source.sites lines).flatMap (Site.entries two.symbols two.program.words) ∧
      ((Source.sites lines).flatMap (Site.entries two.symbols two.program.words)).length =
        lines.length + Source.extraWords lines := by
  obtain ⟨hoff, hshow⟩ := firstPass_shows hnum hone
  have hgrows := runLines_grows_ok secondPass_grows htwo
  -- The lines that the second pass has come to are done; in the places of the others is still what
  -- the first pass has left there.
  have hrun := runLines_induction (P := fun pre c => ∃ done,
    pre.length + c.listing.offset = done.length ∧
    c.listing.Shows (done ++ ((Source.sites lines).drop pre.length).map (Site.early two.symbols)) ∧
    ListingEntry.filled done =
      (Source.sites pre).flatMap (Site.entries two.symbols two.program.words) ∧
    ((Source.sites pre).flatMap (Site.entries two.symbols two.program.words)).length =
      pre.length + Source.extraWords pre) htwo ?_ ?_
  · obtain ⟨done, -, hes, hfilled, hlen⟩ := hrun
    rw [List.drop_of_length_le (by simp), List.map_nil, List.append_nil] at hes
    exact ⟨done, hes, hfilled, hlen⟩
  · refine ⟨[], ?_, ?_, rfl, rfl⟩
    · change 0 + one.listing.offset = 0
      omega
    · exact hshow _ hgrows.entries_grow
  · rintro pre line c d hp hc ⟨done, hdone, hes, hfilled, hlen⟩ hd
    obtain ⟨new, hnew, hlisted, hcount⟩ := secondPass_fills hone htwo hnum hp hc hd
    have hline := hnum.number_eq hp
    rw [Source.drop_sites hp, List.map_cons] at hes
    obtain ⟨hes, hpos⟩ := hnew.shows hes (by omega)
    refine ⟨done ++ new, ?_, hes, ?_, ?_⟩
    · rw [← hpos, List.length_append, List.length_singleton]
      omega
    · rw [ListingEntry.filled_append, hfilled, hlisted, Source.sites_concat, List.flatMap_append,
        List.flatMap_singleton]
    · rw [Source.sites_concat, List.flatMap_append, List.flatMap_singleton, List.length_append,
        hlen, hcount, Source.extraWords_append, List.length_append, List.length_singleton]
      omega

end Assembly

theorem Emitted.codes {lines : List Line} {ops : List Opcode} (h : Emitted lines ops) :
    (ops.flatMap fun op => op.words.zipIdx.map fun (w, n) => (Arith.add op.address n, w)) =
      (ops.flatMap Opcode.words).zipIdx.map fun (w, k) => (Arith.wrap k, w) := by
  induction h with
  | nil => rfl
  | silent _ _ ih => exact ih
  | @words lines ops line ws h _ _ ih =>
    rw [List.flatMap_append, ih, List.flatMap_append, List.zipIdx_append, List.map_append,
      h.length_words, Nat.zero_add, List.flatMap_singleton, List.flatMap_singleton,
      List.zipIdx_eq_map_add (i := Source.size lines), List.map_map]
    refine congrArg _ (List.map_congr_left fun c _ => ?_)
    simp [Arith.add]

/-- The filled entries of the listing match those that are expected of the source lines, one by one
and in their order. The location of a word is its index, which is also its address in the codes, and
there is one line more than in the source for each word of an expansion behind the first. -/
theorem listing_exact {constants : Constants} {texts : List Text} {a : Assembly} {program : Program}
    (h : Assembly.run constants (Line.ofTexts texts) = (a, .ok program)) :
    List.Forall₂ ListingEntry.Matches (program.listing.entries.toList.filter (·.line != 0))
        ((Source.sites (Line.ofTexts texts)).flatMap (Site.listed a.symbols program.words)) ∧
      program.codes = program.words.zipIdx.map (fun (w, k) => (Arith.wrap k, w)) ∧
      program.listing.lines.length = texts.length +
        (((Line.ofTexts texts).filterMap Line.pseudo?).map fun op => op.size - 1).sum := by
  obtain ⟨one, two, hone, -, htwo, -, rfl, rfl⟩ := Assembly.run_ok h
  have hnum := Line.numbered_ofTexts texts
  obtain ⟨es, hes, hfilled, hlen⟩ := Assembly.secondPass_shows hnum hone htwo
  have hentries : two.listing.entries.toList.filter (·.line != 0) =
      (Source.sites (Line.ofTexts texts)).flatMap (Site.entries two.symbols two.program.words) :=
    hes.filled.trans hfilled
  have hem := Assembly.secondPass_emitted (Assembly.firstPass_opcodes hone) htwo
  refine ⟨?_, hem.codes, ?_⟩
  · have hwritten : (Source.sites (Line.ofTexts texts)).flatMap
          (Site.entries two.symbols two.program.words) =
        ((Source.sites (Line.ofTexts texts)).flatMap
          (Site.listed two.symbols two.program.words)).map Listed.entry :=
      List.map_flatMap.symm
    change List.Forall₂ _ (two.listing.entries.toList.filter (·.line != 0)) _
    rw [hentries, hwritten, List.forall₂_map_left_iff]
    exact List.forall₂_same.mpr fun x _ => x.matches_entry
  · have htexts : (Line.ofTexts texts).length = texts.length := by simp [Line.ofTexts]
    change (two.listing.lines).length = _
    rw [Listing.lines, List.length_map, hentries, hlen, htexts]
    rfl

/-- A source with a declaration behind expansions. -/
def Source.lateSample : List Text := Source.sample ++ ([[], ".reg late 7"] : List Text)

theorem listing_exact_sample :
    ∃ a program, Assembly.run {} (Line.ofTexts Source.lateSample) = (a, .ok program) ∧
      List.Forall₂ ListingEntry.Matches (program.listing.entries.toList.filter (·.line != 0))
        ((Source.sites (Line.ofTexts Source.lateSample)).flatMap
          (Site.listed a.symbols program.words)) ∧
      ((program.listing.entries.toList.filter (·.line != 0)).map ListingEntry.payload).take 8 =
        ["0005", "0000", "0005", "0061", "", "11000003", "00000002", "95000001"] ∧
      ((program.listing.entries.toList.filter (·.line != 0)).map ListingEntry.payload).getLast? =
        some "0007" ∧
      program.listing.lines.length = 28 + 4 := by
  obtain ⟨a, program, h⟩ : ∃ a program,
      Assembly.run {} (Line.ofTexts Source.lateSample) = (a, .ok program) :=
    Assembly.run_of_isOk (by decide +kernel)
  have hpayloads : (Assembly.run {} (Line.ofTexts Source.lateSample)).2.toOption.map (fun p =>
      let payloads := (p.listing.entries.toList.filter (·.line != 0)).map ListingEntry.payload
      (payloads.take 8, payloads.getLast?)) =
        some (
          (["0005", "0000", "0005", "0061", "", "11000003", "00000002", "95000001"] : List Text),
          some ("0007" : Text)) := by
    decide +kernel
  have hextra : (((Line.ofTexts Source.lateSample).filterMap Line.pseudo?).map
      fun op => op.size - 1).sum = 4 := by decide +kernel
  rw [h] at hpayloads
  obtain ⟨hfirst, hlast⟩ := Prod.mk.inj (Option.some.inj hpayloads)
  obtain ⟨hmatches, -, hlines⟩ := listing_exact h
  rw [hextra] at hlines
  exact ⟨a, program, h, hmatches, hfirst, hlast, hlines⟩

end BarrelAsm
