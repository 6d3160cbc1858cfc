import JitFrames.Proofs.SessionHistory

/-! The texts of caches and sessions as canonical forms. Every part of such a text ends where the part itself
says, so a text can be taken apart in one way only. The main statement is that it tells everything that lookups
do. -/
namespace JitFrames

/-- In whatever stands behind it, the text of a value ends where it ends, and it is the text of no other value. -/
def SelfDelimiting {α : Type} (write : α → List Char) : Prop :=
  ∀ a b rest rest', write a ++ rest = write b ++ rest' → a = b ∧ rest = rest'

theorem append_mark_inj {p : Char → Bool} {mark : Char} (hmark : p mark = false) {xs ys rest rest' : List Char}
    (hx : ∀ c ∈ xs, p c = true) (hy : ∀ c ∈ ys, p c = true) (h : xs ++ mark :: rest = ys ++ mark :: rest') :
    xs = ys ∧ rest = rest' := by
  induction xs generalizing ys with
  | nil =>
    cases ys with
    | nil => simpa using h
    | cons y ys =>
      obtain ⟨rfl, -⟩ := List.cons.inj h
      simp [hmark] at hy
  | cons x xs ih =>
    cases ys with
    | nil =>
      obtain ⟨rfl, -⟩ := List.cons.inj h
      simp [hmark] at hx
    | cons y ys =>
      obtain ⟨rfl, htail⟩ := List.cons.inj h
      obtain ⟨rfl, hrest⟩ := ih (fun c hc => hx c (by simp [hc])) (fun c hc => hy c (by simp [hc])) htail
      exact ⟨rfl, hrest⟩

theorem intercalate_cons_eq_flatMap (separator xs : List Char) (xss : List (List Char)) :
    separator.intercalate (xs :: xss) = xs ++ xss.flatMap (separator ++ ·) := by
  induction xss generalizing xs with
  | nil => simp
  | cons ys yss ih => rw [List.intercalate_cons_cons, ih, List.flatMap_cons, List.append_assoc, List.append_assoc]

namespace SelfDelimiting

variable {α β : Type} {write : α → List Char} {write' : β → List Char}

theorem inj (h : SelfDelimiting write) {a b : α} (he : write a = write b) : a = b :=
  (h a b [] [] (by rw [he])).1

theorem of_mark {p : Char → Bool} {mark : Char} (hmark : p mark = false) (hinj : ∀ a b, write a = write b → a = b)
    (hp : ∀ a, ∀ c ∈ write a, p c = true) : SelfDelimiting fun a => write a ++ [mark] := by
  intro a b rest rest' h
  simp only [List.append_assoc, List.singleton_append] at h
  obtain ⟨hw, hrest⟩ := append_mark_inj hmark (hp a) (hp b) h
  exact ⟨hinj a b hw, hrest⟩

theorem behind (h : SelfDelimiting write) (opening : List Char) : SelfDelimiting fun a => opening ++ write a := by
  intro a b rest rest' he
  simp only [List.append_assoc, List.append_cancel_left_eq] at he
  exact h a b rest rest' he

theorem closed (h : SelfDelimiting write) (closing : List Char) : SelfDelimiting fun a => write a ++ closing := by
  intro a b rest rest' he
  simp only [List.append_assoc] at he
  obtain ⟨rfl, hrest⟩ := h a b _ _ he
  exact ⟨rfl, List.append_cancel_left hrest⟩

theorem pair (h : SelfDelimiting write) (h' : SelfDelimiting write') :
    SelfDelimiting fun p : α × β => write p.1 ++ write' p.2 := by
  rintro ⟨a, a'⟩ ⟨b, b'⟩ rest rest' he
  simp only [List.append_assoc] at he
  obtain ⟨rfl, hbehind⟩ := h a b _ _ he
  obtain ⟨rfl, hrest⟩ := h' a' b' _ _ hbehind
  exact ⟨rfl, hrest⟩

/-- The elements of a list behind the first, each behind a separator, up to a closing that starts otherwise. -/
theorem separated (h : SelfDelimiting write) {s c : Char} (hsc : s ≠ c) (separator closing : List Char) :
    SelfDelimiting fun l : List α => l.flatMap (fun a => s :: separator ++ write a) ++ c :: closing := by
  -- A further element starts with the separator and the closing does not, so both lists end together.
  intro l
  induction l with
  | nil =>
    intro m rest rest' he
    cases m with
    | nil => simpa using he
    | cons b m => simp [hsc.symm] at he
  | cons a l ih =>
    intro m rest rest' he
    cases m with
    | nil => simp [hsc] at he
    | cons b m =>
      simp only [List.flatMap_cons, List.cons_append, List.append_assoc, List.cons.injEq, true_and,
        List.append_cancel_left_eq] at he
      obtain ⟨rfl, hbehind⟩ := h a b _ _ he
      obtain ⟨rfl, hrest⟩ := ih m rest rest' (by simpa using hbehind)
      exact ⟨rfl, hrest⟩

/-- A list between separators, if no element starts as the closing does. -/
theorem list (h : SelfDelimiting write) {s c : Char} (hsc : s ≠ c)
    (hstart : ∀ a, ∃ d cs, write a = d :: cs ∧ d ≠ c) (separator closing : List Char) :
    SelfDelimiting fun l : List α => (s :: separator).intercalate (l.map write) ++ c :: closing := by
  have htext : ∀ a l, (s :: separator).intercalate ((a :: l).map write) ++ c :: closing =
      write a ++ (l.flatMap (fun a => s :: separator ++ write a) ++ c :: closing) := by
    intro a l
    rw [List.map_cons, intercalate_cons_eq_flatMap, List.flatMap_map, List.append_assoc]
  have hdiffer : ∀ a l rest rest', c :: closing ++ rest ≠ write a ++ l ++ rest' := by
    intro a l rest rest' he
    obtain ⟨d, cs, hd, hne⟩ := hstart a
    rw [hd] at he
    exact hne (List.cons.inj he).1.symm
  intro l m rest rest' he
  cases l with
  | nil =>
    cases m with
    | nil => simpa [List.intercalate] using he
    | cons b m =>
      dsimp only at he
      rw [htext] at he
      exact absurd he (hdiffer _ _ _ _)
  | cons a l =>
    cases m with
    | nil =>
      dsimp only at he
      rw [htext] at he
      exact absurd he.symm (hdiffer _ _ _ _)
    | cons b m =>
      dsimp only at he
      rw [htext, htext] at he
      obtain ⟨hp, hrest⟩ := h.pair (h.separated hsc separator closing) (a, l) (b, m) rest rest' he
      cases hp
      exact ⟨rfl, hrest⟩

end SelfDelimiting

def Addr.isTextChar (c : Char) : Bool := c == 'x' || (Hex.digit? c).isSome

theorem Addr.isTextChar_of_mem {a : Addr} {c : Char} (h : c ∈ a.text.toList) : isTextChar c = true := by
  rw [toList_text, List.mem_cons, List.mem_cons] at h
  obtain rfl | rfl | hd := h
  · decide
  · decide
  · simp [isTextChar, Hex.isSome_digit?_of_mem_digits hd]

theorem Addr.text_inj {a b : Addr} (h : a.text.toList = b.text.toList) : a = b := by
  have hread : ofText? a.text = ofText? b.text := congrArg ofText? (String.toList_inj.1 h)
  simpa using hread

theorem Addr.selfDelimiting_text {mark : Char} (h : isTextChar mark = false) :
    SelfDelimiting fun a : Addr => a.text.toList ++ [mark] :=
  .of_mark h (fun _ _ => text_inj) fun _ _ => isTextChar_of_mem

theorem CodeRange.toList_fieldText (r : CodeRange) : r.fieldText.toList =
    "FunctionRange \x7b start: ".toList ++ (r.start.text.toList ++ [',']) ++
      (" end: ".toList ++ (r.stop.text.toList ++ [' '] ++ ['}'])) := by
  have hcomma : ", end: ".toList = [','] ++ " end: ".toList := by decide
  have hclose : " \x7d".toList = [' '] ++ ['}'] := by decide
  unfold fieldText
  rw [String.toList_append, String.toList_append, String.toList_append, String.toList_append, hcomma, hclose]
  simp only [List.append_assoc]

theorem CodeRange.selfDelimiting_fieldText : SelfDelimiting fun r : CodeRange => r.fieldText.toList := by
  have hstart := (@Addr.selfDelimiting_text ',' (by decide)).behind "FunctionRange \x7b start: ".toList
  have hstop := ((@Addr.selfDelimiting_text ' ' (by decide)).closed ['}']).behind " end: ".toList
  intro r q rest rest' h
  dsimp only at h
  rw [toList_fieldText, toList_fieldText] at h
  obtain ⟨hrq, hrest⟩ := hstart.pair hstop (r.start, r.stop) (q.start, q.stop) rest rest' h
  cases r
  cases q
  cases hrq
  exact ⟨rfl, hrest⟩

theorem toString_nat_inj {m n : Nat} (h : toString m = toString n) : m = n := by
  have hread := congrArg (fun s => Nat.ofDigitChars 10 s.toList 0) h
  simpa [Nat.toString_eq_repr, Nat.ofDigitChars_toDigits] using hread

/-- Numbers in decimal, up to a mark. -/
theorem selfDelimiting_decimal {mark : Char} (h : mark.isDigit = false) :
    SelfDelimiting fun n : Nat => (toString n).toList ++ [mark] := by
  refine .of_mark h (fun m n he => toString_nat_inj (String.toList_inj.1 he)) ?_
  intro n c hc
  rw [Nat.toString_eq_repr, Nat.toList_repr] at hc
  exact Nat.isDigit_of_mem_toDigits (by decide) (by decide) hc

namespace FrameCache

/-- One entry as it stands in the text of a cache. -/
def entryText (e : Addr × CodeRange) : String := toString e.1.toNat ++ ": " ++ e.2.fieldText

/-- The text that shows these entries one after another. -/
def listing (entries : List (Addr × CodeRange)) : String :=
  "RangeCache \x7b ranges: \x7b" ++ ", ".intercalate (entries.map entryText) ++ "\x7d \x7d"

theorem text_eq_listing (c : FrameCache) : c.text = listing c.entries := rfl

theorem toList_entryText (e : Addr × CodeRange) : (entryText e).toList =
    (toString e.1.toNat).toList ++ [':'] ++ ([' '] ++ e.2.fieldText.toList) := by
  have hcolon : ": ".toList = [':'] ++ [' '] := by decide
  unfold entryText
  rw [String.toList_append, String.toList_append, hcolon]
  simp only [List.append_assoc]

theorem selfDelimiting_entryText : SelfDelimiting fun e => (entryText e).toList := by
  have hkey := @selfDelimiting_decimal ':' (by decide)
  have hrange := CodeRange.selfDelimiting_fieldText.behind [' ']
  intro e d rest rest' h
  dsimp only at h
  rw [toList_entryText, toList_entryText] at h
  obtain ⟨hed, hrest⟩ := hkey.pair hrange (e.1.toNat, e.2) (d.1.toNat, d.2) rest rest' h
  obtain ⟨hkeys, hranges⟩ := Prod.mk.inj hed
  exact ⟨Prod.ext (UInt64.toNat_inj.1 hkeys) hranges, hrest⟩

theorem toList_listing (entries : List (Addr × CodeRange)) : (listing entries).toList =
    "RangeCache \x7b ranges: \x7b".toList ++
      ([',', ' '].intercalate (entries.map fun e => (entryText e).toList) ++ '\x7d' :: [' ', '\x7d']) := by
  have hclose : "\x7d \x7d".toList = '\x7d' :: [' ', '\x7d'] := by decide
  have hseparator : ", ".toList = [',', ' '] := by decide
  unfold listing
  rw [String.toList_append, String.toList_append, hclose, String.toList_intercalate, hseparator, List.map_map,
    List.append_assoc]
  rfl

theorem exists_start_entryText (e : Addr × CodeRange) :
    ∃ d cs, (entryText e).toList = d :: cs ∧ d ≠ '\x7d' := by
  rw [toList_entryText, Nat.toString_eq_repr, Nat.toList_repr]
  cases hd : Nat.toDigits 10 e.1.toNat with
  | nil => exact absurd hd Nat.toDigits_ne_nil
  | cons d cs =>
    refine ⟨d, _, rfl, ?_⟩
    rintro rfl
    have hdigit := Nat.isDigit_of_mem_toDigits (by decide) (by decide) (hd ▸ List.mem_cons_self)
    simp at hdigit

theorem selfDelimiting_listing : SelfDelimiting fun entries => (listing entries).toList := by
  have hentries := selfDelimiting_entryText.list (show ',' ≠ '\x7d' by decide) exists_start_entryText [' ']
    [' ', '\x7d']
  intro es ds rest rest' h
  dsimp only at h
  rw [toList_listing, toList_listing] at h
  exact hentries.behind _ es ds rest rest' h

theorem listing_inj {es ds : List (Addr × CodeRange)} : listing es = listing ds ↔ es = ds :=
  ⟨fun h => selfDelimiting_listing.inj (congrArg String.toList h), congrArg listing⟩

theorem selfDelimiting_text : SelfDelimiting fun c : FrameCache => c.text.toList := by
  intro c d rest rest' h
  obtain ⟨he, hrest⟩ := selfDelimiting_listing c.entries d.entries rest rest' h
  exact ⟨ext he, hrest⟩

theorem lookup_eq_iff {c d : FrameCache} : (∀ key, c.lookup key = d.lookup key) ↔ c = d :=
  ⟨ext_lookup, fun h key => by rw [h]⟩

theorem text_eq_iff {c d : FrameCache} : c.text = d.text ↔ ∀ key, c.lookup key = d.lookup key := by
  rw [lookup_eq_iff]
  exact ⟨fun h => selfDelimiting_text.inj (congrArg String.toList h), congrArg text⟩

theorem mem_entries_iff {c : FrameCache} {key : Addr} {range : CodeRange} :
    (key, range) ∈ c.entries ↔ c.lookup key = some range :=
  (value_find?_key_eq_some_iff c.nodup_keys).symm

/-- What can be done to a cache that stands alone. -/
inductive Change
  | insert (key : Addr) (range : CodeRange)
  | clear
  deriving DecidableEq, Repr

def change (c : FrameCache) : Change → FrameCache
  | .insert key range => (c.remember key range).value
  | .clear => .empty

/-- A cache after changes in order, from its start. -/
def after (changes : List Change) : FrameCache := changes.foldl change .empty

def Change.incident : Change → Incident
  | .insert key range => .bound key range
  | .clear => .cleared

/-- A cache alone changes as it does inside a session. -/
theorem foldl_change (changes : List Change) (s : Session) :
    changes.foldl change s.cache = (s.replay (changes.map Change.incident)).cache := by
  induction changes generalizing s with
  | nil => rfl
  | cons c changes ih =>
    have hc : s.cache.change c = (s.suffer c.incident).cache := by
      cases c with
      | insert key range => exact s.cache.value_remember key range
      | clear => rfl
    rw [List.foldl_cons, hc, ih, List.map_cons, Session.replay_cons]

theorem lookup_after_iff {changes : List Change} {key : Addr} {range : CodeRange} :
    (after changes).lookup key = some range ↔ Incident.LastBound (changes.map Change.incident) key range := by
  have hafter : after changes = (({} : Session).replay (changes.map Change.incident)).cache :=
    foldl_change changes {}
  rw [hafter, Session.lookup_replay_iff]
  simp

end FrameCache

namespace Session

theorem toList_text (s : Session) : s.text.toList =
    "Session \x7b cache: ".toList ++ s.cache.text.toList ++
      (", epoch: ".toList ++ ((toString s.epoch).toList ++ [' '] ++ ['\x7d'])) := by
  have hclose : " \x7d".toList = [' '] ++ ['\x7d'] := by decide
  unfold text
  rw [String.toList_append, String.toList_append, String.toList_append, String.toList_append, hclose]
  simp only [List.append_assoc]

theorem text_eq_iff {s t : Session} :
    s.text = t.text ↔ (∀ key, s.cache.lookup key = t.cache.lookup key) ∧ s.epoch = t.epoch := by
  constructor
  · intro h
    have hcache := FrameCache.selfDelimiting_text.behind "Session \x7b cache: ".toList
    have hepoch := ((@selfDelimiting_decimal ' ' (by decide)).closed ['\x7d']).behind ", epoch: ".toList
    have hlist : s.text.toList = t.text.toList := congrArg String.toList h
    rw [toList_text, toList_text] at hlist
    have hpair := (hcache.pair hepoch).inj (a := (s.cache, s.epoch)) (b := (t.cache, t.epoch)) hlist
    obtain ⟨hc, he⟩ := Prod.mk.inj hpair
    exact ⟨FrameCache.lookup_eq_iff.2 hc, he⟩
  · rintro ⟨hl, he⟩
    have hc : s.cache = t.cache := FrameCache.ext_lookup hl
    unfold text
    rw [hc, he]

end Session

/-- Whatever has been done to them, two caches have one text exactly if they answer every lookup alike, and two
sessions if their epochs are equal too. A text shows one listing, ascending by keys. -/
theorem texts_are_canonical :
    (∀ changes changes' : List FrameCache.Change,
      (FrameCache.after changes).text = (FrameCache.after changes').text ↔
        ∀ key, (FrameCache.after changes).lookup key = (FrameCache.after changes').lookup key) ∧
    (∀ (changes : List FrameCache.Change) (key : Addr) (range : CodeRange),
      (FrameCache.after changes).lookup key = some range ↔
        Incident.LastBound (changes.map FrameCache.Change.incident) key range) ∧
    (∀ changes : List FrameCache.Change, ∃ entries,
      (∀ other, (FrameCache.after changes).text = FrameCache.listing other ↔ other = entries) ∧
      entries.Pairwise (fun e d => e.1 < d.1) ∧ entries.length = (FrameCache.after changes).size ∧
      ∀ key range, (key, range) ∈ entries ↔ (FrameCache.after changes).lookup key = some range) ∧
    (∀ ops : List Operation, ∃ entries,
      (∀ other, (Session.run ops).cache.text = FrameCache.listing other ↔ other = entries) ∧
      entries.Pairwise (fun e d => e.1 < d.1) ∧ entries.length = (Session.run ops).cache.size ∧
      ∀ key range, (key, range) ∈ entries ↔ (Session.run ops).cache.lookup key = some range) ∧
    ∀ ops ops' : List Operation,
      ((Session.run ops).cache.text = (Session.run ops').cache.text ↔
        ∀ key, (Session.run ops).cache.lookup key = (Session.run ops').cache.lookup key) ∧
      ((Session.run ops).text = (Session.run ops').text ↔
        (∀ key, (Session.run ops).cache.lookup key = (Session.run ops').cache.lookup key) ∧
          (Session.run ops).epoch = (Session.run ops').epoch) := by
  have hlisting : ∀ c : FrameCache, ∃ entries, (∀ other, c.text = FrameCache.listing other ↔ other = entries) ∧
      entries.Pairwise (fun e d => e.1 < d.1) ∧ entries.length = c.size ∧
      ∀ key range, (key, range) ∈ entries ↔ c.lookup key = some range := by
    intro c
    refine ⟨c.entries, fun other => ?_, c.ascending, rfl, fun key range => FrameCache.mem_entries_iff⟩
    rw [FrameCache.text_eq_listing, FrameCache.listing_inj, eq_comm]
  exact ⟨fun changes changes' => FrameCache.text_eq_iff, fun changes key range => FrameCache.lookup_after_iff,
    fun changes => hlisting _, fun ops => hlisting _,
    fun ops ops' => ⟨FrameCache.text_eq_iff, Session.text_eq_iff⟩⟩

end JitFrames
