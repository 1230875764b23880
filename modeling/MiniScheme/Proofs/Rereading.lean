import MiniScheme.Proofs.OpenLists
import MiniScheme.Proofs.Runs

/-!
# Reading a written datum

The written form of a datum is a text again, and the reader finds the same tokens in it: an atom
is read up to the blank or the parenthesis that the writer puts after it, and parentheses come
where they were. Only the ranges are others, and a symbol spelt like a boolean is a boolean the
second time, since the blank behind it is now an ordinary one.

* `Atom.reread` is what becomes of an atom.
* `Datum.Fits room` holds of the data that the reader makes with `room` levels of nesting left.

## Results

* `fits_of_parse`: what is read fits the limit it was read with.
* `parse_text`: the written form of such a datum is read as the same datum, reread.
-/

namespace MiniScheme

/-! ## Atoms -/

/-- What an atom is read as once it is written: symbols spelt like booleans are booleans. -/
def Atom.reread : Atom → Atom
  | symbol name =>
    if name = "#t" then .boolean true else if name = "#f" then .boolean false else .symbol name
  | a => a

/-- The written form of the atom is one run of characters that is read as the atom, reread. -/
structure Atom.Readable (a : Atom) : Prop where
  ne_nil : a.chars ≠ []
  isAtomChar : ∀ c ∈ a.chars, isAtomChar c = true
  classify : classify a.chars none = some a.reread

theorem Atom.reread_symbol (name : String) :
    (symbol name).reread =
      match booleanOf? name.toList with
      | some b => .boolean b
      | none => .symbol name := by
  simp only [reread]
  by_cases ht : name = "#t"
  · rw [if_pos ht, ht]
    rfl
  by_cases hf : name = "#f"
  · rw [if_neg ht, if_pos hf, hf]
    rfl
  rw [if_neg ht, if_neg hf]
  have hspelling {spelling : String} (hne : name ≠ spelling) : name.toList ≠ spelling.toList :=
    fun h => hne (String.toList_inj.1 h)
  have hnone : booleanOf? name.toList = none := by
    unfold booleanOf?
    split
    · rename_i heq
      exact absurd heq (hspelling ht)
    · rename_i heq
      exact absurd heq (hspelling hf)
    · rfl
  rw [hnone]

theorem Atom.chars_reread (a : Atom) : a.reread.chars = a.chars := by
  cases a with
  | integer n => rfl
  | boolean b => rfl
  | symbol name =>
    simp only [reread]
    by_cases ht : name = "#t"
    · rw [if_pos ht, ht]
      rfl
    by_cases hf : name = "#f"
    · rw [if_neg ht, if_pos hf, hf]
      rfl
    rw [if_neg ht, if_neg hf]

namespace Decimal

theorem digits?_toDigits (n : Nat) : digits? (Nat.toDigits 10 n) = some (n : Int) := by
  have hall : (Nat.toDigits 10 n).all Char.isDigit = true :=
    List.all_eq_true.2 fun _ hc => Nat.isDigit_of_mem_toDigits (by decide) (by decide) hc
  have hne : (Nat.toDigits 10 n).isEmpty = false :=
    List.isEmpty_eq_false_iff.2 Nat.toDigits_ne_nil
  unfold digits?
  rw [hall, hne, Nat.ofDigitChars_ten_toDigits]
  rfl

/-- A text that starts with a digit has no sign. -/
theorem read?_of_isDigit {c : Char} {cs : List Char} (hc : c.isDigit = true) :
    read? (c :: cs) = digits? (c :: cs) := by
  unfold read?
  split
  · rename_i heq
    cases heq
    exact absurd hc (by decide)
  · rename_i heq
    cases heq
    exact absurd hc (by decide)
  · rfl

/-- **Written integers are read back.** -/
theorem read?_write (z : Int) : read? (write z) = some z := by
  unfold write
  split
  · rename_i hz
    simp only [read?, digits?_toDigits, Option.map_some]
    exact congrArg some (by omega)
  · rename_i hz
    obtain ⟨c, cs, hcs⟩ :=
      List.exists_cons_of_ne_nil (Nat.toDigits_ne_nil (n := z.natAbs) (b := 10))
    have hc : c.isDigit = true := by
      refine Nat.isDigit_of_mem_toDigits (n := z.natAbs) (b := 10) (by decide) (by decide) ?_
      rw [hcs]
      exact List.mem_cons_self
    rw [hcs, read?_of_isDigit hc, ← hcs, digits?_toDigits]
    exact congrArg some (by omega)

theorem mem_write {z : Int} {c : Char} (h : c ∈ write z) : c = '-' ∨ c.isDigit = true := by
  have hdigits {c : Char} (h : c ∈ Nat.toDigits 10 z.natAbs) : c.isDigit = true :=
    Nat.isDigit_of_mem_toDigits (by decide) (by decide) h
  unfold write at h
  split at h
  · exact (List.mem_cons.1 h).imp_right hdigits
  · exact .inr (hdigits h)

end Decimal

theorem Atom.readable_integer (n : Int64) : (Atom.integer n).Readable where
  ne_nil := by
    simp only [chars, Decimal.write]
    split
    · exact List.cons_ne_nil _ _
    · exact Nat.toDigits_ne_nil
  isAtomChar c hc := by
    rcases Decimal.mem_write hc with rfl | hc
    · decide
    · exact isAtomChar_of_isDigit hc
  classify := by
    have hn : narrow? n.toInt = some n := narrow?_eq_some_iff.2 rfl
    simp only [MiniScheme.classify, chars, Decimal.read?_write, hn, Option.map_some, reread]

theorem Atom.readable_boolean (b : Bool) : (Atom.boolean b).Readable := by
  cases b with
  | true => exact ⟨by decide, List.all_eq_true.1 (by decide), rfl⟩
  | false => exact ⟨by decide, List.all_eq_true.1 (by decide), rfl⟩

/-- A run that is no integer is read as the symbol it spells, reread. -/
theorem Atom.readable_symbol {run : List Char} (hne : run ≠ [])
    (hrun : ∀ c ∈ run, MiniScheme.isAtomChar c = true) (hread : Decimal.read? run = none) :
    (Atom.symbol (String.ofList run)).Readable where
  ne_nil := by rwa [chars, String.toList_ofList]
  isAtomChar := by rwa [chars, String.toList_ofList]
  classify := by
    rw [chars, String.toList_ofList, reread_symbol, String.toList_ofList]
    unfold MiniScheme.classify
    rw [hread]
    cases booleanOf? run with
    | some b => rfl
    | none => rfl

/-- The atoms that the lexer makes are readable. -/
theorem readable_of_classify {run : List Char} {next : Option Char} {a : Atom} (hne : run ≠ [])
    (hrun : ∀ c ∈ run, isAtomChar c = true) (h : classify run next = some a) : a.Readable := by
  unfold classify at h
  cases hread : Decimal.read? run with
  | some z =>
    rw [hread] at h
    obtain ⟨n, -, rfl⟩ := Option.map_eq_some_iff.1 h
    exact Atom.readable_integer n
  | none =>
    rw [hread] at h
    simp only at h
    split at h
    · cases h
      split
      · exact Atom.readable_symbol hne hrun hread
      · exact Atom.readable_boolean _
    · cases h
      exact Atom.readable_symbol hne hrun hread

/-! ## Tokens -/

/-- The atom of a token is readable, if it is one. -/
def Token.Readable (t : Token) : Prop := ∀ a, t.kind = .atom a → a.Readable

theorem readable_of_lexFrom {pos : Nat} {cs : List Char} {ts : List Token}
    (h : lexFrom pos cs = .ok ts) : ∀ t ∈ ts, t.Readable := by
  -- a parenthesis or an atom in front of tokens that are readable
  have hcons {x : Except LexError (List Token)} {t : Token} {ts : List Token}
      (hx : x.map (t :: ·) = .ok ts) (ht : t.Readable)
      (ih : ∀ ts, x = .ok ts → ∀ t ∈ ts, t.Readable) : ∀ t ∈ ts, t.Readable := by
    cases x with
    | error e => cases hx
    | ok us =>
      cases hx
      exact List.forall_mem_cons.2 ⟨ht, ih us rfl⟩
  fun_induction lexFrom pos cs generalizing ts with
  | case1 =>
    cases h
    exact fun _ ht => absurd ht List.not_mem_nil
  | case2 pos c rest hc ih => exact ih h
  | case3 pos rest hc ih => exact hcons h nofun fun _ => ih
  | case4 pos rest hc ho ih => exact hcons h nofun fun _ => ih
  | case5 => cases h
  | case6 pos c rest hb ho hc run after stop a ha =>
    rename_i ih
    refine hcons h ?_ fun _ => ih
    rintro _ ⟨⟩
    have hcatom : isAtomChar c = true := by
      simp [isAtomChar, hb, ho, hc]
    refine readable_of_classify (List.cons_ne_nil _ _) ?_ ha
    exact List.forall_mem_cons.2 ⟨hcatom, List.all_eq_true.1 List.all_takeWhile⟩

/-- The text is at its end or goes on with a character that the writer puts after an atom. -/
def Ends (rest : List Char) : Prop := rest = [] ∨ ∃ cs, rest = ' ' :: cs ∨ rest = ')' :: cs

theorem lexFrom_blank (pos : Nat) (rest : List Char) :
    lexFrom pos (' ' :: rest) = lexFrom (pos + 1) rest := by
  rw [lexFrom]
  rfl

theorem lexFrom_opening (pos : Nat) (rest : List Char) :
    lexFrom pos ('(' :: rest) = (lexFrom (pos + 1) rest).map (⟨.opening, ⟨pos, pos + 1⟩⟩ :: ·) := by
  rw [lexFrom]
  rfl

theorem lexFrom_closing (pos : Nat) (rest : List Char) :
    lexFrom pos (')' :: rest) = (lexFrom (pos + 1) rest).map (⟨.closing, ⟨pos, pos + 1⟩⟩ :: ·) := by
  rw [lexFrom]
  rfl

/-- What follows an atom in a written datum has no part in it. -/
theorem Ends.classify {rest : List Char} (h : Ends rest) (run : List Char) :
    MiniScheme.classify run rest.head? = MiniScheme.classify run none := by
  have hwide : rest.head?.any isWideBlank = (none : Option Char).any isWideBlank := by
    rcases h with rfl | ⟨cs, rfl | rfl⟩ <;> rfl
  unfold MiniScheme.classify
  rw [hwide]

theorem Ends.takeWhile {rest : List Char} (h : Ends rest) : rest.takeWhile isAtomChar = [] := by
  rcases h with rfl | ⟨cs, rfl | rfl⟩ <;> rfl

theorem Ends.dropWhile {rest : List Char} (h : Ends rest) : rest.dropWhile isAtomChar = rest := by
  rcases h with rfl | ⟨cs, rfl | rfl⟩ <;> rfl

/-- **An atom is read up to its end.** -/
theorem lexFrom_atom {a : Atom} (ha : a.Readable) {rest : List Char} (hrest : Ends rest)
    (pos : Nat) :
    ∃ span, lexFrom pos (a.chars ++ rest) =
      (lexFrom span.stop rest).map (⟨.atom a.reread, span⟩ :: ·) := by
  obtain ⟨c, cs, hcs⟩ := List.exists_cons_of_ne_nil ha.ne_nil
  have hclass := ha.classify
  obtain ⟨hc, hall⟩ := List.forall_mem_cons.1 (hcs ▸ ha.isAtomChar)
  simp only [isAtomChar, Bool.and_eq_true, Bool.not_eq_true', bne_iff_ne] at hc
  refine ⟨⟨pos, pos + byteSize a.chars⟩, ?_⟩
  rw [hcs] at hclass ⊢
  rw [List.cons_append, lexFrom, if_neg (by simp [hc.1.1]), if_neg hc.1.2, if_neg hc.2]
  simp only [List.takeWhile_append_of_pos hall, List.dropWhile_append_of_pos hall,
    hrest.takeWhile, hrest.dropWhile, List.append_nil, hrest.classify, hclass]

/-! ## Data -/

namespace Datum

mutual

/-- The datum with other atoms and ranges. -/
def map (f : Atom → Atom) (g : Span → Span) : Datum → Datum
  | atom a span => atom (f a) (g span)
  | list items span => list (mapAll f g items) (g span)

/-- Several data with other atoms and ranges. -/
def mapAll (f : Atom → Atom) (g : Span → Span) : List Datum → List Datum
  | [] => []
  | d :: ds => d.map f g :: mapAll f g ds

end

/-- The datum without its ranges. -/
def unplaced (d : Datum) : Datum := d.map id fun _ => default

/-- What the datum is read as once it is written, without ranges. -/
def reread (d : Datum) : Datum := d.map Atom.reread fun _ => default

theorem mapAll_eq (f : Atom → Atom) (g : Span → Span) (ds : List Datum) :
    mapAll f g ds = ds.map (map f g) := by
  induction ds with
  | nil => rfl
  | cons d ds ih => rw [mapAll, ih, List.map_cons]

mutual

/-- Ranges do not matter to the written form, nor do atoms that are written alike. -/
theorem writeOnto_map {f : Atom → Atom} {g : Span → Span} (hf : ∀ a, (f a).chars = a.chars) :
    ∀ (d : Datum) (rest : List Char), (d.map f g).writeOnto rest = d.writeOnto rest
  | atom a _, rest => by rw [map, writeOnto, writeOnto, hf]
  | list [] _, rest => rfl
  | list (d :: ds) _, rest => by
    rw [map, mapAll, writeOnto, writeOnto, writeItemsOnto_map hf ds, writeOnto_map hf d]

theorem writeItemsOnto_map {f : Atom → Atom} {g : Span → Span}
    (hf : ∀ a, (f a).chars = a.chars) :
    ∀ (ds : List Datum) (rest : List Char),
      writeItemsOnto (mapAll f g ds) rest = writeItemsOnto ds rest
  | [], rest => rfl
  | d :: ds, rest => by
    rw [mapAll, writeItemsOnto, writeItemsOnto, writeItemsOnto_map hf ds, writeOnto_map hf d]

end

/-- A datum that is read as another one is written like it. -/
theorem text_of_reread {d d' : Datum} (h : d'.unplaced = d.reread) : d'.text = d.text := by
  have hd' : d'.unplaced.writeOnto [] = d'.writeOnto [] := writeOnto_map (fun _ => rfl) d' []
  have hd : d.reread.writeOnto [] = d.writeOnto [] := writeOnto_map Atom.chars_reread d []
  unfold text chars
  rw [← hd', h, hd]

mutual

/-- What the tokens of the written form are. -/
def kinds : Datum → List TokenKind
  | atom a _ => [.atom a.reread]
  | list items _ => .opening :: (kindsAll items ++ [.closing])

/-- What the tokens of several written forms are. -/
def kindsAll : List Datum → List TokenKind
  | [] => []
  | d :: ds => d.kinds ++ kindsAll ds

end

/-- The datum can be read with `room` levels of nesting left. -/
inductive Fits : Nat → Datum → Prop
  | atom {room : Nat} {a : Atom} {span : Span} (h : a.Readable) : Fits room (.atom a span)
  | list {room : Nat} {items : List Datum} {span : Span} (h : ∀ d ∈ items, Fits room d) :
      Fits (room + 1) (.list items span)

end Datum

/-! ## The tokens of a written datum -/

/-- The text is read as tokens of the given kinds, and then `rest` is read. -/
def LexesTo (cs : List Char) (kinds : List TokenKind) (rest : List Char) : Prop :=
  ∀ pos, ∃ ts stop, ts.map Token.kind = kinds ∧ lexFrom pos cs = (lexFrom stop rest).map (ts ++ ·)

section

variable {cs mid rest : List Char} {ks ks' : List TokenKind}

theorem LexesTo.trans (h : LexesTo cs ks mid) (h' : LexesTo mid ks' rest) :
    LexesTo cs (ks ++ ks') rest := by
  intro pos
  obtain ⟨ts, stop, hts, hcs⟩ := h pos
  obtain ⟨us, stop', hus, hmid⟩ := h' stop
  refine ⟨ts ++ us, stop', by rw [List.map_append, hts, hus], ?_⟩
  rw [hcs, hmid]
  cases lexFrom stop' rest with
  | error e => rfl
  | ok vs => simp only [Except.map, List.append_assoc]

theorem LexesTo.blank (rest : List Char) : LexesTo (' ' :: rest) [] rest := by
  intro pos
  refine ⟨[], pos + 1, rfl, ?_⟩
  rw [lexFrom_blank]
  cases lexFrom (pos + 1) rest <;> rfl

theorem LexesTo.opening (rest : List Char) : LexesTo ('(' :: rest) [.opening] rest :=
  fun pos => ⟨[⟨.opening, ⟨pos, pos + 1⟩⟩], pos + 1, rfl, lexFrom_opening pos rest⟩

theorem LexesTo.closing (rest : List Char) : LexesTo (')' :: rest) [.closing] rest :=
  fun pos => ⟨[⟨.closing, ⟨pos, pos + 1⟩⟩], pos + 1, rfl, lexFrom_closing pos rest⟩

theorem LexesTo.atom {a : Atom} (ha : a.Readable) (hrest : Ends rest) :
    LexesTo (a.chars ++ rest) [.atom a.reread] rest := by
  intro pos
  obtain ⟨span, h⟩ := lexFrom_atom ha hrest pos
  exact ⟨[⟨.atom a.reread, span⟩], span.stop, rfl, h⟩

end

namespace Datum

theorem ends_writeItemsOnto (ds : List Datum) (rest : List Char) :
    Ends (writeItemsOnto ds rest) := by
  cases ds with
  | nil => exact .inr ⟨rest, .inr rfl⟩
  | cons d ds => exact .inr ⟨_, .inl rfl⟩

theorem lexesTo_writeItemsOnto {ds : List Datum}
    (h : ∀ d ∈ ds, ∀ rest, Ends rest → LexesTo (d.writeOnto rest) d.kinds rest)
    (rest : List Char) : LexesTo (writeItemsOnto ds rest) (kindsAll ds ++ [.closing]) rest := by
  induction ds with
  | nil => exact .closing rest
  | cons d ds ih =>
    obtain ⟨hd, hds⟩ := List.forall_mem_cons.1 h
    rw [kindsAll, List.append_assoc]
    exact (LexesTo.blank _).trans
      ((hd (writeItemsOnto ds rest) (ends_writeItemsOnto ds rest)).trans (ih hds))

/-- **The tokens of a written datum.** -/
theorem Fits.lexesTo {room : Nat} {d : Datum} (h : Fits room d) :
    ∀ rest, Ends rest → LexesTo (d.writeOnto rest) d.kinds rest := by
  induction h with
  | atom ha => exact fun rest hrest => .atom ha hrest
  | @list room items span hi ih =>
    intro rest hrest
    cases items with
    | nil => exact (LexesTo.opening _).trans (.closing rest)
    | cons d ds =>
      obtain ⟨hd, hds⟩ := List.forall_mem_cons.1 ih
      rw [kinds, kindsAll, List.append_assoc]
      exact (LexesTo.opening _).trans ((hd _ (ends_writeItemsOnto ds rest)).trans
        (lexesTo_writeItemsOnto hds rest))

/-! ## Reading the tokens -/

/-- The tokens are read as some datum that is, without its ranges, the given one. -/
def ReadsAs (limit depth : Nat) (d : Datum) (ts : List Token) : Prop :=
  ∃ d', d'.unplaced = d.reread ∧ ∀ stack rest, stack.length = depth →
    readWith limit stack (ts ++ rest) = deliver limit d' stack rest

theorem unplaced_list (items : List Datum) (span : Span) :
    (list items span).unplaced = list (items.map unplaced) default := by
  rw [unplaced, map, mapAll_eq]
  rfl

theorem reread_list (items : List Datum) (span : Span) :
    (list items span).reread = list (items.map reread) default := by
  rw [reread, map, mapAll_eq]
  rfl

/-- Items that are read as given data are added to the innermost list one after the other. -/
theorem readWith_items {limit depth : Nat} {ds : List Datum} {ts : List Token}
    (hts : ts.map Token.kind = kindsAll ds)
    (h : ∀ d ∈ ds, ∀ ts, ts.map Token.kind = d.kinds → ReadsAs limit (depth + 1) d ts) :
    ∃ ds' : List Datum, ds'.map unplaced = ds.map reread ∧ ∀ o stack rest, stack.length = depth →
      readWith limit (o :: stack) (ts ++ rest) =
        readWith limit (⟨o.span, ds'.reverse ++ o.items⟩ :: stack) rest := by
  induction ds generalizing ts with
  | nil =>
    cases List.map_eq_nil_iff.1 hts
    exact ⟨[], rfl, fun _ _ _ _ => rfl⟩
  | cons d ds ih =>
    obtain ⟨hd, hds⟩ := List.forall_mem_cons.1 h
    obtain ⟨us, vs, rfl, hus, hvs⟩ := List.map_eq_append_iff.1 hts
    obtain ⟨d', hd', hread⟩ := hd us hus
    obtain ⟨ds', hds', hrest⟩ := ih hvs hds
    refine ⟨d' :: ds', by rw [List.map_cons, List.map_cons, hd', hds'], ?_⟩
    intro o stack rest hdepth
    rw [List.append_assoc, hread (o :: stack) (vs ++ rest) (by rw [List.length_cons, hdepth])]
    rw [deliver, hrest (o.add d') stack rest hdepth]
    simp [OpenList.add]

/-- **Reading the tokens of a written datum.** -/
theorem Fits.readsAs {limit room : Nat} {d : Datum} (h : Fits room d) :
    ∀ depth ts, depth + room = limit → ts.map Token.kind = d.kinds →
      ReadsAs limit depth d ts := by
  induction h with
  | @atom room a span ha =>
    intro depth ts _ hts
    obtain ⟨t, rfl, ht⟩ := List.map_eq_singleton_iff.1 hts
    obtain ⟨kind, place⟩ := t
    cases ht
    exact ⟨.atom a.reread place, rfl, fun stack rest _ => readWith_atom limit stack _ place rest⟩
  | @list room items span _ ih =>
    intro depth ts hroom hts
    obtain ⟨⟨_, first⟩, us, rfl, hfirst, hus⟩ := List.map_eq_cons_iff.1 hts
    obtain ⟨vs, ws, rfl, hvs, hws⟩ := List.map_eq_append_iff.1 hus
    obtain ⟨⟨_, last⟩, rfl, hlast⟩ := List.map_eq_singleton_iff.1 hws
    cases hfirst
    cases hlast
    obtain ⟨ds', hds', hread⟩ := readWith_items hvs fun d hd ts hts =>
      ih d hd (depth + 1) ts (by omega) hts
    refine ⟨.list ds' (first.merge last), ?_, ?_⟩
    · rw [unplaced_list, reread_list, hds']
    · intro stack rest hdepth
      have hopen : stack.length < limit := by omega
      have hstep : readWith limit stack (⟨.opening, first⟩ :: (vs ++ [⟨.closing, last⟩]) ++ rest) =
          readWith limit (⟨first, []⟩ :: stack) (vs ++ (⟨.closing, last⟩ :: rest)) := by
        simp [readWith, hopen]
      rw [hstep, hread ⟨first, []⟩ stack _ hdepth, readWith_closing]
      simp [OpenList.close]

end Datum

/-! ## What is read -/

/-- Every item of every open list can be read with the room there is inside that list. -/
def FitsAll (limit : Nat) : List OpenList → Prop
  | [] => True
  | o :: stack =>
    (∃ room, stack.length + 1 + room = limit ∧ ∀ d ∈ o.items, d.Fits room) ∧ FitsAll limit stack

section

variable {limit : Nat} {stack : List OpenList}

theorem FitsAll.add {o : OpenList} {d : Datum} (h : FitsAll limit (o :: stack))
    (hd : ∀ room, stack.length + 1 + room = limit → d.Fits room) :
    FitsAll limit (o.add d :: stack) := by
  obtain ⟨⟨room, hroom, hitems⟩, hstack⟩ := h
  exact ⟨⟨room, hroom, List.forall_mem_cons.2 ⟨hd room hroom, hitems⟩⟩, hstack⟩

theorem FitsAll.close {o : OpenList} (h : FitsAll limit (o :: stack)) (span : Span) {room : Nat}
    (hroom : stack.length + room = limit) : (o.close span).Fits room := by
  obtain ⟨⟨room', hroom', hitems⟩, -⟩ := h
  obtain rfl : room = room' + 1 := by omega
  exact .list fun d hd => hitems d (List.mem_reverse.1 hd)

/-- **What the reader makes of readable tokens fits the limit.** -/
theorem fits_of_readWith {ts rest : List Token} {d : Datum} (hts : ∀ t ∈ ts, t.Readable)
    (hstack : FitsAll limit stack) (h : readWith limit stack ts = (.ok d, rest)) :
    d.Fits limit := by
  induction ts generalizing stack with
  | nil => cases stack <;> cases h
  | cons t ts ih =>
    obtain ⟨ht, hrest⟩ := List.forall_mem_cons.1 hts
    obtain ⟨kind, span⟩ := t
    match kind, stack with
    | .opening, stack =>
      by_cases hopen : stack.length < limit
      · simp only [readWith, if_pos hopen] at h
        have hnew : FitsAll limit (⟨span, []⟩ :: stack) :=
          ⟨⟨limit - (stack.length + 1), by omega, nofun⟩, hstack⟩
        exact ih hrest hnew h
      · simp only [readWith, if_neg hopen] at h
        cases h
    | .closing, [] => cases h
    | .closing, [o] =>
      cases h
      exact hstack.close span (Nat.zero_add limit)
    | .closing, o :: p :: stack =>
      exact ih hrest (FitsAll.add hstack.2 fun _ => hstack.close span) h
    | .atom a, [] =>
      cases h
      exact .atom (ht a rfl)
    | .atom a, o :: stack => exact ih hrest (hstack.add fun _ _ => .atom (ht a rfl)) h

end

/-- What is read fits the limit it was read with. -/
theorem fits_of_parse {limit : Nat} {source : String} {d : Datum}
    (h : parse limit source = .ok d) : d.Fits limit := by
  unfold parse at h
  cases htok : tokenize source with
  | error e =>
    rw [htok] at h
    cases h
  | ok tokens =>
    rw [htok] at h
    simp only [readOnly, readDatum_eq] at h
    cases hread : readWith limit [] tokens with
    | mk r rest =>
      rw [hread] at h
      match r, rest with
      | .ok d', [] =>
        cases h
        have hempty : FitsAll limit [] := trivial
        exact fits_of_readWith (readable_of_lexFrom ((tokenize_eq _).symm.trans htok)) hempty hread
      | .ok d', t :: rest => cases h
      | .error e, rest => cases h

/-- **The written form of a datum is read as the datum, reread.** -/
theorem parse_text {limit : Nat} {d : Datum} (h : d.Fits limit) :
    ∃ d', parse limit d.text = .ok d' ∧ d'.unplaced = d.reread := by
  obtain ⟨ts, stop, hts, hlex⟩ := h.lexesTo [] (.inl rfl) 0
  have hnil : lexFrom stop [] = .ok [] := by rw [lexFrom]
  have htok : tokenize d.text = .ok ts := by
    rw [tokenize_eq]
    unfold Datum.text Datum.chars
    rw [String.toList_ofList, hlex, hnil]
    simp [Except.map]
  obtain ⟨d', hd', hread⟩ := h.readsAs 0 ts (Nat.zero_add limit) hts
  have hend : readWith limit [] ts = (.ok d', []) := by
    have := hread [] [] rfl
    rwa [List.append_nil] at this
  refine ⟨d', ?_, hd'⟩
  unfold parse
  rw [htok]
  simp only [readOnly, readDatum_eq, hend]

end MiniScheme
