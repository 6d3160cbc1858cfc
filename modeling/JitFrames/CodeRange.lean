import JitFrames.Addr

/-! The machine code of one compiled function: the half-open range of its addresses. A frame of the
function is shown under the label of the range, and the label can be read back. -/
namespace JitFrames

structure CodeRange where
  start : Addr
  stop : Addr
  deriving DecidableEq, Repr

namespace CodeRange

/-- A range that ends before it starts contains nothing. -/
def contains (r : CodeRange) (pc : Addr) : Bool := decide (r.start ≤ pc ∧ pc < r.stop)

def label (r : CodeRange) : String := "JIT[" ++ r.start.text ++ ", " ++ r.stop.text ++ "]"

def ofLabel? (s : String) : Option CodeRange :=
  match s.toList with
  | 'J' :: 'I' :: 'T' :: '[' :: cs =>
    match cs.dropWhile (· ≠ ',') with
    | ',' :: ' ' :: rest =>
      if rest.getLast? = some ']' then do
        let start ← Addr.ofText? (String.ofList (cs.takeWhile (· ≠ ',')))
        let stop ← Addr.ofText? (String.ofList rest.dropLast)
        return { start, stop }
      else none
    | _ => none
  | _ => none

/-- The form with field names, as it stands inside the text of a cache. -/
def fieldText (r : CodeRange) : String :=
  "FunctionRange \x7b start: " ++ r.start.text ++ ", end: " ++ r.stop.text ++ " \x7d"

@[simp] theorem contains_iff {r : CodeRange} {pc : Addr} :
    r.contains pc = true ↔ r.start ≤ pc ∧ pc < r.stop := by simp [contains]

theorem not_contains_of_stop_le {r : CodeRange} (h : r.stop ≤ r.start) (pc : Addr) :
    r.contains pc = false := by
  simp only [contains, decide_eq_false_iff_not, not_and, UInt64.not_lt]
  exact fun hs => UInt64.le_trans h hs

theorem ne_comma_of_mem_text {a : Addr} {c : Char} (h : c ∈ a.text.toList) : decide (c ≠ ',') = true := by
  have hd : ¬ (Hex.digit? ',').isSome := by decide
  rw [Addr.toList_text] at h
  rcases List.mem_cons.1 h with rfl | h
  · decide
  · rcases List.mem_cons.1 h with rfl | h
    · decide
    · exact decide_eq_true fun he => hd (he ▸ Hex.isSome_digit?_of_mem_digits h)

theorem takeWhile_text (a : Addr) (cs : List Char) :
    (a.text.toList ++ ',' :: cs).takeWhile (· ≠ ',') = a.text.toList := by
  rw [List.takeWhile_append_of_pos fun c hc => ne_comma_of_mem_text hc]
  simp

theorem dropWhile_text (a : Addr) (cs : List Char) :
    (a.text.toList ++ ',' :: cs).dropWhile (· ≠ ',') = ',' :: cs := by
  rw [List.dropWhile_append_of_pos fun c hc => ne_comma_of_mem_text hc]
  simp

theorem toList_label (r : CodeRange) : r.label.toList =
    'J' :: 'I' :: 'T' :: '[' :: (r.start.text.toList ++ ',' :: ' ' :: (r.stop.text.toList ++ [']'])) := by
  simp [label]

@[simp] theorem ofLabel?_label (r : CodeRange) : ofLabel? r.label = some r := by
  simp only [ofLabel?, toList_label, takeWhile_text, dropWhile_text]
  simp [-Addr.toList_text]

theorem label_inj {r q : CodeRange} : r.label = q.label ↔ r = q :=
  ⟨fun h => Option.some.inj (by rw [← ofLabel?_label r, h, ofLabel?_label]), fun h => h ▸ rfl⟩

end CodeRange
end JitFrames
