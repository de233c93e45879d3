import Mathlib
import FilterLists.Toml.Reader
import FilterLists.Proofs.Toml.Quoted
import FilterLists.Proofs.Toml.Scalar

/-!
Reading one line of a document: a header, or a bare key with a value. What a line does to the
document is stated on the table that is open, with the rest of the document as its surroundings.
-/
namespace FilterLists.Toml.Reader

open Quoted (isPlain isSpace afterNewline? NoQuote)
open Scalar (EndsWord)

section Keys
variable {word rest : List Char}

def IsBare (word : List Char) : Prop :=
  word ≠ [] ∧ ∀ c ∈ word, isBareKeyChar c = true

theorem not_isBareKeyChar {c : Char} (h : isBareKeyChar c = true) :
    c ≠ '"' ∧ c ≠ '\'' ∧ c ≠ '[' ∧ c ≠ '#' ∧ c ≠ '\n' ∧ c ≠ '\r' ∧ isSpace c = false := by
  refine ⟨?_, ?_, ?_, ?_, ?_, ?_, ?_⟩
  iterate 6
    rintro rfl
    exact absurd h (by decide)
  by_contra hspace
  simp only [isSpace, Bool.not_eq_false, Bool.or_eq_true, decide_eq_true_eq] at hspace
  rcases hspace with rfl | rfl <;> exact absurd h (by decide)

theorem keyPart?_bare (hword : IsBare word) (hrest : ∀ c ∈ rest.head?, isBareKeyChar c = false) :
    keyPart? (word ++ rest) = some (String.ofList word, rest) := by
  obtain ⟨hne, hchars⟩ := hword
  have hstop : rest.takeWhile isBareKeyChar = [] ∧ rest.dropWhile isBareKeyChar = rest := by
    cases rest with
    | nil => simp
    | cons c rest => simp [hrest c (by simp)]
  have htake : (word ++ rest).takeWhile isBareKeyChar = word := by
    rw [List.takeWhile_append_of_pos hchars, hstop.1, List.append_nil]
  have hdrop : (word ++ rest).dropWhile isBareKeyChar = rest := by
    rw [List.dropWhile_append_of_pos hchars, hstop.2]
  obtain ⟨c, tail, rfl⟩ := List.exists_cons_of_ne_nil hne
  obtain ⟨hdouble, hsingle, -⟩ := not_isBareKeyChar (hchars c List.mem_cons_self)
  unfold keyPart?
  split
  · next heq => exact absurd (List.cons.inj heq).1 hdouble
  · next heq => exact absurd (List.cons.inj heq).1 hsingle
  · simp only [htake, hdrop]
    rfl

theorem keyUpTo?_bare {n : Nat} (hword : IsBare word)
    (hrest : ∀ c ∈ rest.head?, isBareKeyChar c = false)
    (hdot : (rest.dropWhile isSpace).head? ≠ some '.') :
    keyUpTo? (n + 1) (word ++ rest) =
      some ([], String.ofList word, rest.dropWhile isSpace) := by
  rw [keyUpTo?, keyPart?_bare hword hrest]
  simp only [Option.bind_eq_bind, Option.bind_some]
  split
  · next heq => simp [heq] at hdot
  · rfl

theorem keyUpTo?_dotted {n : Nat} (hword : IsBare word) (hspace : rest.dropWhile isSpace = rest) :
    keyUpTo? (n + 1) (word ++ '.' :: rest) =
      (keyUpTo? n rest).map fun (parts, last, after) =>
        (String.ofList word :: parts, last, after) := by
  rw [keyUpTo?, keyPart?_bare hword (by simp; decide)]
  have hdot : ('.' :: rest).dropWhile isSpace = '.' :: rest := rfl
  simp only [Option.bind_eq_bind, Option.bind_some, hdot, hspace]
  rw [Option.map_eq_bind]
  rfl

end Keys

section Values
variable {depth n : Nat} {rest : List Char}

theorem skipFiller_of_head {c : Char} (h : c ≠ '\n' ∧ c ≠ '\r' ∧ c ≠ '#' ∧ isSpace c = false) :
    skipFiller false (c :: rest) = c :: rest := by
  obtain ⟨hline, hreturn, hcomment, hspace⟩ := h
  rw [skipFiller.eq_def]
  split <;> simp_all

theorem value?_text (h : NoQuote rest) (s : String) :
    value? depth (n + 1) (Quoted.write s.toList ++ rest) = some (.text s, rest) := by
  obtain ⟨tail, hhead⟩ := Quoted.head?_write s.toList
  have hread := Quoted.read?_write h s.toList
  rw [value?.eq_def]
  rcases hhead with hhead | hhead <;>
  · rw [hhead] at hread ⊢
    simp only [List.cons_append] at hread ⊢
    rw [hread]
    simp

theorem value?_scalar {c : Char} (h : c ≠ '"' ∧ c ≠ '\'' ∧ c ≠ '[' ∧ c ≠ '\x7b') :
    value? depth (n + 1) (c :: rest) = Scalar.read? (c :: rest) := by
  obtain ⟨hdouble, hsingle, hbracket, hbrace⟩ := h
  simp [value?, hdouble, hsingle, hbracket, hbrace]

theorem value?_array (h : depth < maxDepth) :
    value? depth (n + 1) ('[' :: rest) =
      (items? (depth + 1) n (skipFiller false rest)).map fun (vs, rest) => (.array vs, rest) := by
  simp [value?, h]

theorem items?_end : items? depth (n + 1) (']' :: rest) = some ([], rest) := by
  rw [items?]

/-- An item before a comma, with the next one after it. -/
theorem items?_comma {text more : List Char} {v : Value} (h : text.head? ≠ some ']')
    (hread : value? depth n text = some (v, ',' :: more)) :
    items? depth (n + 1) text =
      (items? depth n (skipFiller false more)).map fun (vs, rest) => (v :: vs, rest) := by
  have hcomma : skipFiller false (',' :: more) = ',' :: more :=
    skipFiller_of_head (by decide)
  rw [items?]
  · simp only [hread, Option.bind_eq_bind, Option.bind_some, hcomma]
    rw [Option.map_eq_bind]
    rfl
  · rintro more rfl
    exact h rfl

theorem items?_bracket {text : List Char} {v : Value} (h : text.head? ≠ some ']')
    (hread : value? depth n text = some (v, ']' :: rest)) :
    items? depth (n + 1) text = some ([v], rest) := by
  have hbracket : skipFiller false (']' :: rest) = ']' :: rest :=
    skipFiller_of_head (by decide)
  rw [items?]
  · simp only [hread, Option.bind_eq_bind, Option.bind_some, hbracket]
  · rintro more rfl
    exact h rfl

end Values

section Lines
variable {size n : Nat} {path : List String} {entries : Members} {rest : List Char}

theorem lineEnd?_newline : lineEnd? ('\n' :: rest) = some rest := rfl

theorem document?_nil : document? size (n + 1) path entries [] = some entries := rfl

theorem document?_blank :
    document? size (n + 1) path entries ('\n' :: rest) = document? size n path entries rest := rfl

/-- A word that is read as a value at the end of a line. -/
structure ReadsAs (size : Nat) (word : List Char) (v : Value) : Prop where
  starts : ∃ c tail, word = c :: tail ∧ isSpace c = false
  reads : ∀ rest, value? 0 size (word ++ '\n' :: rest) = some (v, '\n' :: rest)

def IsOpen (path : List String) (wrap : Members → Members) : Prop :=
  ∀ (f : Members → Option Members) (inner : Members),
    Table.descend f path (wrap inner) = (f inner).map wrap

theorem document?_key {c : Char} {text after : List Char} {key : String} {v : Value}
    (hstart : isBareKeyChar c = true) (hkey : key? (c :: text) = some ([], key, '=' :: after))
    (hread : value? 0 size (after.dropWhile isSpace) = some (v, '\n' :: rest)) :
    document? size (n + 1) path entries (c :: text) =
      (Table.descend (Table.addPair key v []) path entries).bind
        fun grown => document? size n path grown rest := by
  obtain ⟨-, -, hbracket, hcomment, hline, hreturn, hspace⟩ := not_isBareKeyChar hstart
  have hdrop : (c :: text).dropWhile isSpace = c :: text :=
    List.dropWhile_cons_of_neg (by simp [hspace])
  rw [document?, hdrop]
  split
  · cases ‹_›
  · next heq => exact absurd (List.cons.inj heq).1 hbracket
  · next heq => exact absurd (List.cons.inj heq).1 hbracket
  · next heq =>
    obtain ⟨rfl, rfl⟩ := List.cons.inj heq
    simp [hcomment, hline, hreturn, hkey, Scalar.expect?, hread, lineEnd?_newline]

theorem document?_pair {key word : List Char} {v : Value} (hkey : IsBare key)
    (hword : ReadsAs size word v) :
    document? size (n + 1) path entries (key ++ ' ' :: '=' :: ' ' :: (word ++ '\n' :: rest)) =
      (Table.descend (Table.addPair (String.ofList key) v []) path entries).bind
        fun grown => document? size n path grown rest := by
  obtain ⟨d, more, rfl, hd⟩ := hword.starts
  have hparts : key? (key ++ ' ' :: '=' :: ' ' :: (d :: more ++ '\n' :: rest)) =
      some ([], String.ofList key, '=' :: ' ' :: (d :: more ++ '\n' :: rest)) :=
    keyUpTo?_bare hkey (by simp; decide) (by simp [isSpace])
  have hread : value? 0 size ((' ' :: (d :: more ++ '\n' :: rest)).dropWhile isSpace) =
      some (v, '\n' :: rest) := by
    have hskip : (' ' :: (d :: more ++ '\n' :: rest)).dropWhile isSpace =
        d :: more ++ '\n' :: rest := by
      rw [List.dropWhile_cons_of_pos (by decide), List.cons_append,
        List.dropWhile_cons_of_neg (by simp [hd])]
    rw [hskip]
    exact hword.reads rest
  obtain ⟨c, tail, rfl⟩ := List.exists_cons_of_ne_nil hkey.1
  exact document?_key (hkey.2 c List.mem_cons_self) hparts hread

theorem dropWhile_isSpace_bare {key : List Char} (hkey : IsBare key) (more : List Char) :
    (key ++ more).dropWhile isSpace = key ++ more := by
  obtain ⟨c, tail, rfl⟩ := List.exists_cons_of_ne_nil hkey.1
  have hspace := (not_isBareKeyChar (hkey.2 c List.mem_cons_self)).2.2.2.2.2.2
  exact List.dropWhile_cons_of_neg (by simp [hspace])

/-- The key of a header fills its line up to the closing brackets. -/
theorem header?_of_key {closing text : List Char} {parts : List String} {last : String}
    (hspace : text.dropWhile isSpace = text)
    (hkey : key? text = some (parts, last, closing ++ '\n' :: rest)) :
    header? closing text = some (parts, last, rest) := by
  have hclosing : closing.isPrefixOf (closing ++ '\n' :: rest) = true :=
    List.isPrefixOf_iff_prefix.mpr (List.prefix_append _ _)
  simp only [header?, hspace, hkey, Option.bind_eq_bind, Option.bind_some, hclosing, if_true,
    List.drop_left, lineEnd?_newline]

theorem document?_tableHeader {key : List Char} (hkey : IsBare key) :
    document? size (n + 1) path entries ('[' :: (key ++ ']' :: '\n' :: rest)) =
      (Table.openTable (String.ofList key) entries).bind
        fun opened => document? size n [String.ofList key] opened rest := by
  have hparts : key? (key ++ ']' :: '\n' :: rest) =
      some ([], String.ofList key, ']' :: '\n' :: rest) :=
    keyUpTo?_bare hkey (by simp; decide) (by simp [isSpace])
  have hheader : header? [']'] (key ++ ']' :: '\n' :: rest) = some ([], String.ofList key, rest) :=
    header?_of_key (dropWhile_isSpace_bare hkey _) hparts
  have hdrop : ('[' :: (key ++ ']' :: '\n' :: rest)).dropWhile isSpace =
      '[' :: (key ++ ']' :: '\n' :: rest) := rfl
  rw [document?, hdrop]
  split
  · cases ‹_›
  · next heq =>
    obtain ⟨c, tail, rfl⟩ := List.exists_cons_of_ne_nil hkey.1
    have hbracket := (not_isBareKeyChar (hkey.2 c List.mem_cons_self)).2.2.1
    exact absurd (List.cons.inj (List.cons.inj heq).2).1 hbracket
  · next heq =>
    cases heq
    simp [hheader, Table.descend]
  · next hno heq => exact (hno (List.cons.inj heq).1.symm).elim

theorem document?_arrayHeader {outer key : List Char} (houter : IsBare outer) (hkey : IsBare key) :
    document? size (n + 1) path entries
        ('[' :: '[' :: (outer ++ '.' :: (key ++ ']' :: ']' :: '\n' :: rest))) =
      (Table.descend (Table.openArray (String.ofList key)) [String.ofList outer] entries).bind
        fun opened => document? size n [String.ofList outer, String.ofList key] opened rest := by
  have hlast : keyUpTo? 79 (key ++ ']' :: ']' :: '\n' :: rest) =
      some ([], String.ofList key, ']' :: ']' :: '\n' :: rest) :=
    keyUpTo?_bare hkey (by simp; decide) (by simp [isSpace])
  have hparts : key? (outer ++ '.' :: (key ++ ']' :: ']' :: '\n' :: rest)) =
      some ([String.ofList outer], String.ofList key, ']' :: ']' :: '\n' :: rest) := by
    rw [key?, maxDepth, keyUpTo?_dotted houter (dropWhile_isSpace_bare hkey _), hlast]
    rfl
  have hheader : header? [']', ']'] (outer ++ '.' :: (key ++ ']' :: ']' :: '\n' :: rest)) =
      some ([String.ofList outer], String.ofList key, rest) :=
    header?_of_key (dropWhile_isSpace_bare houter _) hparts
  have hdrop : ('[' :: '[' :: (outer ++ '.' :: (key ++ ']' :: ']' :: '\n' :: rest))).dropWhile
      isSpace = '[' :: '[' :: (outer ++ '.' :: (key ++ ']' :: ']' :: '\n' :: rest)) := rfl
  rw [document?, hdrop]
  simp only [hheader, Option.bind_eq_bind, Option.bind_some, List.cons_append, List.nil_append]

end Lines

section Tables
variable {entries : Members} {wrap : Members → Members} {part : String}

theorem isOpen_nil : IsOpen [] id := by
  intro f inner
  simp [Table.descend]

theorem lookup_append_of_none {entries : Members} (h : entries.lookup part = none) (v : Value)
    (more : Members) : (entries ++ (part, v) :: more).lookup part = some v := by
  simp [List.lookup_append, h]

theorem set_append_of_none {entries : Members} (h : entries.lookup part = none) (v w : Value) :
    Table.set (entries ++ [(part, v)]) part w = entries ++ [(part, w)] := by
  have hother : entries.map (fun entry => if entry.1 = part then (part, w) else entry) = entries := by
    conv_rhs => rw [← List.map_id entries]
    refine List.map_congr_left fun entry hentry => if_neg fun heq => ?_
    have := List.lookup_eq_none_iff.mp h entry hentry
    simp [heq] at this
  simp [Table.set, hother]

/-- A table at the end of the open one is reached through its name. -/
theorem isOpen_table {path : List String} {kind : TableKind} (h : entries.lookup part = none)
    (hkind : kind ≠ .inlined) (hopen : IsOpen path wrap) :
    IsOpen (part :: path) (fun inner => entries ++ [(part, .table kind (wrap inner))]) := by
  intro f inner
  rw [Table.descend, lookup_append_of_none h]
  simp only [hkind, if_false, hopen f inner]
  cases f inner with
  | none => rfl
  | some changed => simp [set_append_of_none h]

theorem mapLast?_append {α : Type} (f : α → Option α) (done : List α) (a : α) :
    Table.mapLast? f (done ++ [a]) = (f a).map fun b => done ++ [b] := by
  induction done with
  | nil => simp [Table.mapLast?]
  | cons d done ih =>
    have hcons : Table.mapLast? f (d :: (done ++ [a])) =
        (Table.mapLast? f (done ++ [a])).map (d :: ·) := by
      cases done <;> rfl
    rw [List.cons_append, hcons, ih, Option.map_map]
    rfl

/-- The last one of an array of tables is reached through the name of the array. -/
theorem isOpen_tables {done : List Members} (h : entries.lookup part = none) :
    IsOpen [part] (fun inner => entries ++ [(part, .tables (done ++ [inner]))]) := by
  intro f inner
  rw [Table.descend, lookup_append_of_none h]
  simp only [mapLast?_append, Table.descend]
  cases f inner with
  | none => rfl
  | some changed => simp [set_append_of_none h]

theorem addPair_of_none {key : String} (h : entries.lookup key = none) (v : Value) :
    Table.addPair key v [] entries = some (entries ++ [(key, v)]) := by
  simp [Table.addPair, h]

theorem openTable_of_none (h : entries.lookup part = none) :
    Table.openTable part entries = some (entries ++ [(part, .table .header [])]) := by
  simp [Table.openTable, h]

theorem openArray_of_none (h : entries.lookup part = none) :
    Table.openArray part entries = some (entries ++ [(part, .tables [[]])]) := by
  simp [Table.openArray, h]

theorem openArray_append (h : entries.lookup part = none) (done : List Members) :
    Table.openArray part (entries ++ [(part, .tables done)]) =
      some (entries ++ [(part, .tables (done ++ [[]]))]) := by
  simp only [Table.openArray, lookup_append_of_none h, set_append_of_none h]

end Tables

section Positions
variable {size : Nat}

/-- How far a document has been read. -/
structure Position where
  path : List String
  entries : Members
  text : List Char

def Position.read (size n : Nat) (p : Position) : Option Members :=
  document? size n p.path p.entries p.text

/-- Reading comes from one position to another, with more steps left than characters. -/
def LeadsTo (size : Nat) (p q : Position) : Prop :=
  ∀ n, p.text.length < n → ∃ m, q.text.length < m ∧ p.read size n = q.read size m

theorem LeadsTo.refl (p : Position) : LeadsTo size p p :=
  fun n hn => ⟨n, hn, rfl⟩

theorem LeadsTo.trans {p q r : Position} (hpq : LeadsTo size p q) (hqr : LeadsTo size q r) :
    LeadsTo size p r := by
  intro n hn
  obtain ⟨m, hm, hread⟩ := hpq n hn
  obtain ⟨k, hk, hrest⟩ := hqr m hm
  exact ⟨k, hk, hread.trans hrest⟩

/-- One step that reads at least one character. -/
theorem leadsTo_of_step {p q : Position} (hlength : q.text.length < p.text.length)
    (hstep : ∀ n, p.read size (n + 1) = q.read size n) : LeadsTo size p q := by
  intro n hn
  match n, hn with
  | n + 1, hn => exact ⟨n, by omega, hstep n⟩

theorem read_of_leadsTo {p : Position} {path : List String} {entries : Members}
    (h : LeadsTo size p ⟨path, entries, []⟩) :
    p.read size (p.text.length + 1) = some entries := by
  obtain ⟨m, hm, hread⟩ := h _ (Nat.lt_succ_self _)
  match m, hm with
  | m + 1, _ => exact hread.trans document?_nil

variable {path : List String} {entries : Members} {rest : List Char}

theorem leadsTo_blank : LeadsTo size ⟨path, entries, '\n' :: rest⟩ ⟨path, entries, rest⟩ :=
  leadsTo_of_step (by simp) (fun _ => document?_blank)

variable (rest)

theorem leadsTo_tableHeader {key : List Char} (hkey : IsBare key)
    (hnone : entries.lookup (String.ofList key) = none) :
    LeadsTo size ⟨path, entries, '[' :: (key ++ ']' :: '\n' :: rest)⟩
      ⟨[String.ofList key], entries ++ [(String.ofList key, .table .header [])], rest⟩ := by
  refine leadsTo_of_step (by simp; omega) fun n => ?_
  simp only [Position.read]
  rw [document?_tableHeader hkey, openTable_of_none hnone, Option.bind_some]

theorem leadsTo_arrayHeader (outer key : List Char) {opened : Members} (houter : IsBare outer)
    (hkey : IsBare key)
    (hopen : Table.descend (Table.openArray (String.ofList key)) [String.ofList outer] entries =
      some opened) :
    LeadsTo size ⟨path, entries, '[' :: '[' :: (outer ++ '.' :: (key ++ ']' :: ']' :: '\n' :: rest))⟩
      ⟨[String.ofList outer, String.ofList key], opened, rest⟩ := by
  refine leadsTo_of_step (by simp; omega) fun n => ?_
  simp only [Position.read]
  rw [document?_arrayHeader houter hkey, hopen, Option.bind_some]

/-- A line with a bare key, what is written behind it, and the value that it stands for. -/
structure WrittenPair (size : Nat) where
  key : String
  word : List Char
  value : Value
  bare : IsBare key.toList
  reads : ReadsAs size word value

namespace WrittenPair

def text (p : WrittenPair size) : List Char :=
  p.key.toList ++ ' ' :: '=' :: ' ' :: (p.word ++ ['\n'])

def member (p : WrittenPair size) : String × Value :=
  (p.key, p.value)

end WrittenPair

variable {wrap : Members → Members}

theorem leadsTo_pair (hopen : IsOpen path wrap) (p : WrittenPair size) {inner : Members}
    (hfresh : inner.lookup p.member.1 = none) :
    LeadsTo size ⟨path, wrap inner, p.text ++ rest⟩ ⟨path, wrap (inner ++ [p.member]), rest⟩ := by
  have htext : p.text ++ rest =
      p.key.toList ++ ' ' :: '=' :: ' ' :: (p.word ++ '\n' :: rest) := by
    simp [WrittenPair.text]
  have hadd : Table.addPair p.key p.value [] inner = some (inner ++ [p.member]) :=
    addPair_of_none hfresh p.value
  rw [htext]
  refine leadsTo_of_step (by simp; omega) fun n => ?_
  simp only [Position.read]
  rw [document?_pair p.bare p.reads, String.ofList_toList, hopen, hadd, Option.map_some,
    Option.bind_some]

/-- Lines with different keys fill the table that is open. -/
theorem leadsTo_pairs (hopen : IsOpen path wrap) (pairs : List (WrittenPair size))
    (inner : Members) (hfresh : ∀ p ∈ pairs, inner.lookup p.member.1 = none)
    (hdistinct : (pairs.map (·.member.1)).Nodup) :
    LeadsTo size ⟨path, wrap inner, pairs.flatMap (·.text) ++ rest⟩
      ⟨path, wrap (inner ++ pairs.map (·.member)), rest⟩ := by
  induction pairs generalizing inner with
  | nil => simpa using LeadsTo.refl _
  | cons p pairs ih =>
    obtain ⟨hnew, hfresh⟩ := List.forall_mem_cons.mp hfresh
    obtain ⟨hapart, hdistinct⟩ := List.nodup_cons.mp hdistinct
    have hnext : ∀ q ∈ pairs, (inner ++ [p.member]).lookup q.member.1 = none := by
      intro q hq
      have hne : q.member.1 ≠ p.member.1 :=
        fun heq => hapart (List.mem_map.mpr ⟨q, hq, heq⟩)
      simp [List.lookup_append, hfresh q hq, hne]
    have hfirst := leadsTo_pair (pairs.flatMap (·.text) ++ rest) hopen p hnew
    rw [List.flatMap_cons, List.append_assoc, List.map_cons, List.append_cons]
    exact hfirst.trans (ih _ hnext hdistinct)

end Positions

end FilterLists.Toml.Reader
