import MiniScheme.Proofs.Grammar
import MiniScheme.Proofs.NormalForm
import MiniScheme.Proofs.Tokenization

/-!
# Every layout of a datum

A datum has many texts: any blanks may stand around its tokens, and an integer may be written with
a sign and with zeros in front. `LaysOut` is the relation between tokens and such texts. It asks
for a blank only between two atoms; a parenthesis ends the atom in front of it by itself. What
follows an atom in a layout is therefore never part of it, and the lexer cuts the text where the
layout put its pieces together.

* `Datum.tokens` are the tokens of a datum from left to right.
* `Datum.Plain` leaves out the symbols that no text can spell.

## Results

* `LaysOut.lexesTo`: a layout is read as the tokens that were laid out.
* `exists_spells`: tokens of the right kinds, wherever they stand, are a derivation of the datum.
* `plain_data_are_read_in_every_layout`: both together, and for the printed form as well.
-/

namespace MiniScheme

/-! ## Layouts -/

/-- A blank of ASCII. -/
def isAsciiBlank (c : Char) : Bool :=
  isBlank c && decide (c.toNat < 0x80)

/-- The texts that stand for one token: an integer has a spelling for each sign and number of
leading zeros, everything else has one. -/
inductive TokenKind.SpeltAs : TokenKind → List Char → Prop
  | opening : SpeltAs .opening ['(']
  | closing : SpeltAs .closing [')']
  | integer {n : Int64} {text : List Char} (h : IsInteger text n.toInt) :
      SpeltAs (.atom (.integer n)) text
  | boolean (b : Bool) : SpeltAs (.atom (.boolean b)) (Atom.boolean b).chars
  | symbol (name : String) : SpeltAs (.atom (.symbol name)) name.toList

/-- The text starts with a blank of ASCII wherever the first token is an atom. -/
def Parted (kinds : List TokenKind) (text : List Char) : Prop :=
  ∀ a, kinds.head? = some (.atom a) → ∃ c rest, text = c :: rest ∧ isAsciiBlank c = true

/-- The text is the tokens in order, with blanks of ASCII before, between and after them: any
number of blanks, and at least one between two atoms. -/
inductive LaysOut : List TokenKind → List Char → Prop
  | done {gap : List Char} (hgap : ∀ c ∈ gap, isAsciiBlank c = true) : LaysOut [] gap
  | token {k : TokenKind} {kinds : List TokenKind} {gap text rest : List Char}
      (hgap : ∀ c ∈ gap, isAsciiBlank c = true) (htext : k.SpeltAs text)
      (hrest : LaysOut kinds rest) (hparted : ∀ a, k = .atom a → Parted kinds rest) :
      LaysOut (k :: kinds) (gap ++ (text ++ rest))

/-! ## Plain data -/

/-- The symbol is one that its name spells: the name is not empty, has neither blank nor
parenthesis in it, and is neither an integer nor a boolean. -/
structure PlainName (name : String) : Prop where
  ne_empty : name ≠ ""
  letters : ∀ c ∈ name.toList, isBlank c = false ∧ c ≠ '(' ∧ c ≠ ')'
  not_integer : ∀ z, ¬IsInteger name.toList z
  not_true : name ≠ "#t"
  not_false : name ≠ "#f"

namespace Datum

/-- All symbols of the datum are plain. -/
inductive Plain : Datum → Prop
  | atom {a : Atom} {span : Span} (h : ∀ name, a = .symbol name → PlainName name) :
      Plain (.atom a span)
  | list {items : List Datum} {span : Span} (h : ∀ d ∈ items, Plain d) : Plain (.list items span)

mutual

/-- The tokens of the datum from left to right. -/
def tokens : Datum → List TokenKind
  | atom a _ => [.atom a]
  | list items _ => .opening :: (tokensAll items ++ [.closing])

/-- The tokens of several data, one after the other. -/
def tokensAll : List Datum → List TokenKind
  | [] => []
  | d :: ds => d.tokens ++ tokensAll ds

end

end Datum

/-! ## A layout is read as its tokens -/

theorem not_isAtomChar_of_isAsciiBlank {c : Char} (h : isAsciiBlank c = true) :
    isAtomChar c = false ∧ isWideBlank c = false := by
  simp only [isAsciiBlank, Bool.and_eq_true, decide_eq_true_eq] at h
  constructor
  · simp [isAtomChar, h.1]
  · simp [isWideBlank, h.1, h.2]

/-- The text does not go on with anything that an atom in front of it depends on. -/
def Stops (rest : List Char) : Prop :=
  ∀ c, rest.head? = some c → isAtomChar c = false ∧ isWideBlank c = false

theorem stops_of_isAsciiBlank {gap rest : List Char} (hgap : ∀ c ∈ gap, isAsciiBlank c = true)
    (hrest : gap = [] → Stops rest) : Stops (gap ++ rest) := by
  cases gap with
  | nil => exact hrest rfl
  | cons c gap =>
    rintro _ ⟨⟩
    exact not_isAtomChar_of_isAsciiBlank (hgap c List.mem_cons_self)

/-- **What follows an atom is no part of it**: the end, a blank or a parenthesis. -/
theorem LaysOut.stops {kinds : List TokenKind} {rest : List Char} (h : LaysOut kinds rest)
    (hparted : Parted kinds rest) : Stops rest := by
  cases h with
  | done hgap =>
    rw [← List.append_nil rest]
    exact stops_of_isAsciiBlank hgap fun _ => nofun
  | @token k kinds gap text rest hgap htext hrest _ =>
    refine stops_of_isAsciiBlank hgap fun hnil => ?_
    subst hnil
    cases htext with
    | opening =>
      rintro _ ⟨⟩
      decide
    | closing =>
      rintro _ ⟨⟩
      decide
    | integer | boolean | symbol =>
      -- another atom is kept apart by a blank
      obtain ⟨c, cs, heq, hc⟩ := hparted _ rfl
      rw [List.nil_append] at heq
      rw [heq]
      rintro _ ⟨⟩
      exact not_isAtomChar_of_isAsciiBlank hc

theorem LexesTo.skip {gap : List Char} (hgap : ∀ c ∈ gap, isAsciiBlank c = true)
    (rest : List Char) : LexesTo (gap ++ rest) [] rest := by
  intro pos
  induction gap generalizing pos with
  | nil =>
    refine ⟨[], pos, rfl, ?_⟩
    cases h : lexFrom pos rest <;> simp [h, Except.map]
  | cons c gap ih =>
    obtain ⟨hc, hgap⟩ := List.forall_mem_cons.1 hgap
    obtain ⟨ts, stop, hts, hlex⟩ := ih hgap (pos + c.utf8Size)
    have hblank : isBlank c = true := by
      simp only [isAsciiBlank, Bool.and_eq_true] at hc
      exact hc.1
    refine ⟨ts, stop, hts, ?_⟩
    rw [List.cons_append, lexFrom, if_pos hblank, hlex]

/-- A run of atom characters is one token. -/
theorem LexesTo.run {text rest : List Char} {a : Atom} (hne : text ≠ [])
    (hrun : ∀ c ∈ text, isAtomChar c = true) (ha : Denotes text rest.head? a)
    (hrest : Stops rest) : LexesTo (text ++ rest) [.atom a] rest := by
  intro pos
  obtain ⟨c, cs, rfl⟩ := List.exists_cons_of_ne_nil hne
  obtain ⟨hc, hcs⟩ := List.forall_mem_cons.1 hrun
  obtain ⟨hblank, hopen, hclose⟩ := isAtomChar_iff.1 hc
  have htake : rest.takeWhile isAtomChar = [] := by
    cases rest with
    | nil => rfl
    | cons d rest => simp [(hrest d rfl).1]
  have hdrop : rest.dropWhile isAtomChar = rest := by
    cases rest with
    | nil => rfl
    | cons d rest => simp [(hrest d rfl).1]
  refine ⟨[⟨.atom a, ⟨pos, pos + byteSize (c :: cs)⟩⟩], pos + byteSize (c :: cs), rfl, ?_⟩
  rw [List.cons_append, lexFrom, if_neg (by simp [hblank]), if_neg hopen, if_neg hclose]
  simp only [List.takeWhile_append_of_pos hcs, List.dropWhile_append_of_pos hcs, htake, hdrop,
    List.append_nil, classify_eq_some_iff.2 ha]
  rfl

theorem IsInteger.ne_nil {text : List Char} {z : Int} (h : IsInteger text z) : text ≠ [] := by
  cases h with
  | unsigned hne => exact hne
  | plus | minus => exact List.cons_ne_nil _ _

theorem IsInteger.isAtomChar {text : List Char} {z : Int} (h : IsInteger text z) :
    ∀ c ∈ text, isAtomChar c = true := by
  cases h with
  | unsigned _ hds => exact fun c hc => isAtomChar_of_isDigit (hds c hc)
  | plus _ hds | minus _ hds =>
    exact List.forall_mem_cons.2 ⟨by decide, fun c hc => isAtomChar_of_isDigit (hds c hc)⟩

/-- A plain symbol is what its name denotes, whatever stands behind it. -/
theorem PlainName.denotes {name : String} (h : PlainName name) (next : Option Char) :
    Denotes name.toList next (.symbol name) := by
  have hsymbol : Denotes name.toList next (.symbol (String.ofList name.toList)) := by
    refine .symbol h.not_integer fun b hb => ?_
    cases b with
    | true => exact absurd (String.toList_inj.1 (hb : name.toList = "#t".toList)) h.not_true
    | false => exact absurd (String.toList_inj.1 (hb : name.toList = "#f".toList)) h.not_false
  rwa [String.ofList_toList] at hsymbol

/-- The spelling of a token is read as the token. -/
theorem TokenKind.SpeltAs.lexesTo {k : TokenKind} {text rest : List Char} (h : k.SpeltAs text)
    (hplain : ∀ name, k = .atom (.symbol name) → PlainName name)
    (hrest : ∀ a, k = .atom a → Stops rest) : LexesTo (text ++ rest) [k] rest := by
  cases h with
  | opening => exact .opening rest
  | closing => exact .closing rest
  | integer h => exact .run h.ne_nil h.isAtomChar (.integer h) (hrest _ rfl)
  | boolean b =>
    have hstops := hrest _ rfl
    have hb := Atom.readable_boolean b
    exact .run hb.ne_nil hb.isAtomChar (.boolean rfl fun c hc => (hstops c hc).2) hstops
  | symbol name =>
    have hname := hplain name rfl
    have hne : name.toList ≠ [] := fun h => hname.ne_empty (String.toList_inj.1 h)
    exact .run hne (fun c hc => isAtomChar_iff.2 (hname.letters c hc)) (hname.denotes _)
      (hrest _ rfl)

/-- **A layout is read as the tokens that were laid out.** -/
theorem LaysOut.lexesTo {kinds : List TokenKind} {text : List Char} (h : LaysOut kinds text)
    (hplain : ∀ name, .atom (.symbol name) ∈ kinds → PlainName name) : LexesTo text kinds [] := by
  induction h with
  | @done gap hgap =>
    have hskip := LexesTo.skip hgap []
    rwa [List.append_nil] at hskip
  | @token k kinds gap text rest hgap htext hrest hparted ih =>
    have hk : LexesTo (text ++ rest) [k] rest := by
      refine htext.lexesTo (fun name heq => hplain name ?_) fun a ha =>
        hrest.stops (hparted a ha)
      rw [heq]
      exact List.mem_cons_self
    exact (LexesTo.skip hgap _).trans
      (hk.trans (ih fun name hname => hplain name (List.mem_cons_of_mem _ hname)))

/-! ## The tokens are read as the datum -/

namespace Datum

mutual

/-- **Tokens of the right kinds are a derivation**, of the datum with other ranges. -/
theorem exists_spells : ∀ (d : Datum) (ts : List Token), ts.map Token.kind = d.tokens →
    ∃ d', Spells ts d' ∧ d'.unplaced = d.unplaced ∧ d'.depth = d.depth
  | .atom a _, ts, hts => by
    obtain ⟨⟨_, place⟩, rfl, hkind⟩ := List.map_eq_singleton_iff.1 hts
    cases hkind
    exact ⟨.atom a place, .atom a place, rfl, rfl⟩
  | .list items _, ts, hts => by
    obtain ⟨⟨_, first⟩, us, rfl, hfirst, hus⟩ := List.map_eq_cons_iff.1 hts
    obtain ⟨vs, ws, rfl, hvs, hws⟩ := List.map_eq_append_iff.1 hus
    obtain ⟨⟨_, last⟩, rfl, hlast⟩ := List.map_eq_singleton_iff.1 hws
    cases hfirst
    cases hlast
    obtain ⟨ds, hds, hsame, hdepth⟩ := exists_spellsAll items vs hvs
    refine ⟨.list ds (first.merge last), .list first last hds, ?_, ?_⟩
    · rw [unplaced_list, unplaced_list, hsame]
    · rw [depth, depth, hdepth]

/-- The same for several data, one after the other. -/
theorem exists_spellsAll : ∀ (ds : List Datum) (ts : List Token),
    ts.map Token.kind = tokensAll ds →
    ∃ ds', SpellsAll ts ds' ∧ ds'.map unplaced = ds.map unplaced ∧ depthAll ds' = depthAll ds
  | [], ts, hts => by
    cases List.map_eq_nil_iff.1 hts
    exact ⟨[], .nil, rfl, rfl⟩
  | d :: ds, ts, hts => by
    obtain ⟨us, vs, rfl, hus, hvs⟩ := List.map_eq_append_iff.1 hts
    obtain ⟨d', hd', hsame, hdepth⟩ := exists_spells d us hus
    obtain ⟨ds', hds', hsames, hdepths⟩ := exists_spellsAll ds vs hvs
    refine ⟨d' :: ds', .cons hd' hds', ?_, ?_⟩
    · rw [List.map_cons, List.map_cons, hsame, hsames]
    · rw [depthAll, depthAll, hdepth, hdepths]

end

mutual

theorem plain_of_mem_tokens : ∀ {d : Datum}, d.Plain → ∀ name,
    .atom (.symbol name) ∈ d.tokens → PlainName name
  | .atom a _, .atom h, name, hmem => by
    rw [tokens, List.mem_singleton] at hmem
    cases hmem
    exact h name rfl
  | .list items _, .list h, name, hmem => by
    simp only [tokens, List.mem_cons, List.mem_append, reduceCtorEq, List.not_mem_nil,
      false_or, or_false] at hmem
    exact plain_of_mem_tokensAll h name hmem

theorem plain_of_mem_tokensAll : ∀ {ds : List Datum}, (∀ d ∈ ds, d.Plain) → ∀ name,
    .atom (.symbol name) ∈ tokensAll ds → PlainName name
  | d :: ds, h, name, hmem => by
    obtain ⟨hd, hds⟩ := List.forall_mem_cons.1 h
    exact (List.mem_append.1 hmem).elim (plain_of_mem_tokens hd name)
      (plain_of_mem_tokensAll hds name)

end

/-- **Every layout of a plain datum is read as that datum.** -/
theorem Plain.parse_eq {limit : Nat} {d : Datum} (h : d.Plain) (hdepth : d.depth ≤ limit)
    {text : String} (htext : LaysOut d.tokens text.toList) :
    ∃ d', parse limit text = .ok d' ∧ d'.unplaced = d.unplaced := by
  obtain ⟨ts, stop, hts, hlex⟩ := htext.lexesTo (plain_of_mem_tokens h) 0
  have htok : tokenize text = .ok ts := by
    have hnil : lexFrom stop [] = .ok [] := by rw [lexFrom]
    rw [tokenize_eq, hlex, hnil]
    simp [Except.map]
  obtain ⟨d', hspells, hsame, hsize⟩ := exists_spells d ts hts
  refine ⟨d', ?_, hsame⟩
  unfold parse
  rw [htok]
  exact readOnly_eq_ok_iff.2 ⟨hspells, by omega⟩

end Datum

/-! ## The printed form is a layout -/

theorem Atom.speltAs_chars (a : Atom) : TokenKind.SpeltAs (.atom a) a.chars := by
  cases a with
  | integer n => exact .integer (read?_eq_some_iff.1 (Decimal.read?_write n.toInt))
  | boolean b => exact .boolean b
  | symbol name => exact .symbol name

theorem LaysOut.blank {kinds : List TokenKind} {text : List Char} (h : LaysOut kinds text) :
    LaysOut kinds (' ' :: text) := by
  have hcons {gap : List Char} (hgap : ∀ c ∈ gap, isAsciiBlank c = true) :
      ∀ c ∈ ' ' :: gap, isAsciiBlank c = true := List.forall_mem_cons.2 ⟨by decide, hgap⟩
  cases h with
  | done hgap => exact .done (hcons hgap)
  | token hgap htext hrest hparted => exact .token (hcons hgap) htext hrest hparted

namespace Datum

/-- A token with nothing in front of it. -/
theorem laysOut_cons {k : TokenKind} {kinds : List TokenKind} {text rest : List Char}
    (htext : k.SpeltAs text) (hrest : LaysOut kinds rest)
    (hparted : ∀ a, k = .atom a → Parted kinds rest) : LaysOut (k :: kinds) (text ++ rest) := by
  rw [← List.nil_append (text ++ rest)]
  exact .token nofun htext hrest hparted

theorem parted_writeItemsOnto {kinds : List TokenKind} (ds : List Datum) (rest : List Char) :
    Parted (tokensAll ds ++ .closing :: kinds) (writeItemsOnto ds rest) := by
  cases ds with
  | nil => nofun
  | cons d ds => exact fun _ _ => ⟨_, _, rfl, by decide⟩

mutual

/-- **The written form is a layout**, in front of any layout that it is parted from. -/
theorem laysOut_writeOnto : ∀ (d : Datum) {kinds : List TokenKind} {rest : List Char},
    LaysOut kinds rest → Parted kinds rest → LaysOut (d.tokens ++ kinds) (d.writeOnto rest)
  | .atom a _, _, _, hrest, hparted => laysOut_cons a.speltAs_chars hrest fun _ _ => hparted
  | .list [] _, _, _, hrest, _ =>
    laysOut_cons .opening (laysOut_cons .closing hrest nofun) nofun
  | .list (d :: ds) _, kinds, rest, hrest, _ => by
    have hitems := laysOut_writeItemsOnto ds hrest
    have hd := laysOut_writeOnto d hitems (parted_writeItemsOnto ds rest)
    have hopen := laysOut_cons .opening hd nofun
    rw [tokens, tokensAll, writeOnto]
    simpa using hopen

theorem laysOut_writeItemsOnto : ∀ (ds : List Datum) {kinds : List TokenKind} {rest : List Char},
    LaysOut kinds rest → LaysOut (tokensAll ds ++ .closing :: kinds) (writeItemsOnto ds rest)
  | [], _, _, hrest => laysOut_cons .closing hrest nofun
  | d :: ds, kinds, rest, hrest => by
    have hitems := laysOut_writeItemsOnto ds hrest
    have hd := laysOut_writeOnto d hitems (parted_writeItemsOnto ds rest)
    rw [tokensAll, writeItemsOnto, List.append_assoc]
    exact hd.blank

end

theorem laysOut_text (d : Datum) : LaysOut d.tokens d.text.toList := by
  have hend : LaysOut [] [] := .done nofun
  have h := laysOut_writeOnto d hend nofun
  rw [List.append_nil] at h
  unfold text chars
  rwa [String.toList_ofList]

end Datum

/-- **Every datum can be read back in any layout.** A tree of integers, booleans, lists and plain
symbols that is nested within the limit is read from every text that lays out its tokens, up to
ranges; and what is printed for it, in whatever store it was built, is such a text. -/
theorem plain_data_are_read_in_every_layout {limit : Nat} {d : Datum} (hplain : d.Plain)
    (hdepth : d.depth ≤ limit) :
    (∀ text : String, LaysOut d.tokens text.toList →
      ∃ d', parse limit text = .ok d' ∧ d'.unplaced = d.unplaced) ∧
    ∀ s : Store, LaysOut d.tokens ((s.load d).2.text (s.load d).1.value).toList ∧
      ∃ d', parse limit ((s.load d).2.text (s.load d).1.value) = .ok d' ∧
        d'.unplaced = d.unplaced := by
  refine ⟨fun text htext => hplain.parse_eq hdepth htext, fun s => ?_⟩
  rw [Store.text_load]
  exact ⟨d.laysOut_text, hplain.parse_eq hdepth d.laysOut_text⟩

/-- A symbol that starts like an integer, an integer with a sign and zeros, a list directly behind
an atom, tabs and line ends, nested as deep as the limit allows. -/
theorem plain_data_are_read_in_every_layout_padded :
    ∃ d', parse 2 "\t( +x\n#f(-007) )\r\n" = .ok d' ∧
      d'.unplaced = .list [.atom (.symbol "+x") default, .atom (.boolean false) default,
        .list [.atom (.integer (-7)) default] default] default := by
  have hname : PlainName "+x" := by
    refine ⟨by decide, ?_, fun z hz => ?_, by decide, by decide⟩
    · exact List.forall_mem_cons.2 ⟨by decide, List.forall_mem_cons.2 ⟨by decide, nofun⟩⟩
    · have hread : Decimal.read? "+x".toList = none := by decide
      rw [read?_eq_some_iff.2 hz] at hread
      cases hread
  have hplain : (Datum.list [.atom (.symbol "+x") default, .atom (.boolean false) default,
      .list [.atom (.integer (-7)) default] default] default).Plain := by
    refine .list (List.forall_mem_cons.2 ⟨.atom ?_, List.forall_mem_cons.2 ⟨.atom nofun,
      List.forall_mem_cons.2 ⟨.list ?_, nofun⟩⟩⟩)
    · rintro _ ⟨⟩
      exact hname
    · exact List.forall_mem_cons.2 ⟨.atom nofun, nofun⟩
  have hseven : IsInteger ['-', '0', '0', '7'] (-7 : Int64).toInt :=
    read?_eq_some_iff.1 (by decide)
  have hblank {c : Char} (h : isAsciiBlank c = true) : ∀ d ∈ [c], isAsciiBlank d = true :=
    List.forall_mem_cons.2 ⟨h, nofun⟩
  -- the layout from its end
  have hlast : LaysOut _ ([' '] ++ ([')'] ++ ['\r', '\n'])) :=
    .token (hblank (by decide)) .closing (.done (List.all_eq_true.1 (by decide))) nofun
  have hinner := Datum.laysOut_cons .opening
    (Datum.laysOut_cons (.integer hseven) (Datum.laysOut_cons .closing hlast nofun) nofun) nofun
  have hfalse : LaysOut _ (['\n'] ++ (['#', 'f'] ++ _)) :=
    .token (hblank (by decide)) (.boolean false) hinner nofun
  have hsymbol : LaysOut _ ([' '] ++ ("+x".toList ++ _)) :=
    .token (hblank (by decide)) (.symbol "+x") hfalse fun _ _ _ _ => ⟨_, _, rfl, by decide⟩
  have hlayout : LaysOut _ (['\t'] ++ (['('] ++ _)) :=
    .token (hblank (by decide)) .opening hsymbol nofun
  exact (plain_data_are_read_in_every_layout hplain (by decide)).1 _ hlayout

end MiniScheme
