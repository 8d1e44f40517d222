import AddressableHeap.Reading
import Mathlib

/-!
# The text of a trace is unambiguous

What a reader takes off the front of a text does not depend on what comes behind it. Every part of a
message is read back in this sense, so that the parts of a message can be read one after the other, and
no two callbacks are written alike.
-/

namespace AddressableHeap

namespace Reader

variable {α β : Type}

/-- In front of whatever else, `r` reads `written` as `a` and leaves the rest as it is. -/
def Reads (r : Reader α) (written : List Char) (a : α) : Prop :=
  ∀ rest, r (written ++ rest) = some (a, rest)

theorem Reads.pure (a : α) : Reads (pure a) [] a := fun _ => rfl

theorem Reads.bind {r : Reader α} {f : α → Reader β} {written more : List Char} {a : α} {b : β}
    (h : Reads r written a) (hmore : Reads (f a) more b) :
    Reads (r >>= f) (written ++ more) b := by
  intro rest
  change (r (written ++ more ++ rest) >>= fun read => f read.1 read.2) = some (b, rest)
  rw [List.append_assoc, h (more ++ rest)]
  exact hmore rest

/-- A reader that ends with a step that reads nothing. -/
theorem Reads.bind_nil {r : Reader α} {f : α → Reader β} {written : List Char} {a : α} {b : β}
    (h : Reads r written a) (hdone : Reads (f a) [] b) : Reads (r >>= f) written b := by
  simpa using h.bind hdone

/-- A text is read in one way only. -/
theorem Reads.unique {r : Reader α} {written : List Char} {a b : α} (ha : Reads r written a)
    (hb : Reads r written b) : a = b := by
  have heq := (ha []).symm.trans (hb [])
  simp only [Option.some.injEq, Prod.mk.injEq] at heq
  exact heq.1

/-! ## Words and numbers -/

theorem reads_pass (c : Char) : Reads (pass c) [c] () := fun _ => if_pos rfl

/-- A word is read up to the first `stop`, so there must be none in it. -/
theorem reads_upTo {stop : Char} {word : String} (hword : stop ∉ word.toList) :
    Reads (upTo stop) (word.toList ++ [stop]) word := by
  intro rest
  have hne : ∀ c ∈ word.toList, (!decide (c = stop)) = true := by
    rintro c hc
    simpa using fun heq : c = stop => hword (heq ▸ hc)
  simp [upTo, List.dropWhile_append_of_pos hne, List.takeWhile_append_of_pos hne]

theorem isDigit_of_mem_repr {n : Nat} {c : Char} (hc : c ∈ n.repr.toList) : c.isDigit = true := by
  rw [Nat.toList_repr] at hc
  exact Nat.isDigit_of_mem_toDigits (by decide) (by decide) hc

theorem isDigit_or_eq_of_mem_repr {n : Int} {c : Char} (hc : c ∈ n.repr.toList) :
    c.isDigit = true ∨ c = '-' := by
  rw [Int.repr_eq_if] at hc
  split at hc
  · exact .inl (isDigit_of_mem_repr hc)
  · rw [String.toList_append, List.mem_append] at hc
    obtain hc | hc := hc
    · exact .inr (by simpa using hc)
    · exact .inl (isDigit_of_mem_repr hc)

theorem reads_key (k : Key) : Reads key ((toString k).toList ++ [',']) k := by
  have hstop : ',' ∉ (toString k).toList := fun hc => by
    obtain h | h := isDigit_or_eq_of_mem_repr (n := k.toInt) hc <;> exact absurd h (by decide)
  have hdigits : (toString k).toInt? = some k.toInt := Int.toInt?_repr k.toInt
  refine (reads_upTo hstop).bind_nil fun rest => ?_
  rw [hdigits]
  exact congrArg (fun k => some (k, rest)) (Int64.ofInt_toInt k)

theorem reads_element (id : Id) : Reads element ((toString id).toList ++ [')']) id := by
  have hstop : ')' ∉ (toString id).toList := fun hc => absurd (isDigit_of_mem_repr hc) (by decide)
  have hdigits : (toString id).toNat? = some id := Nat.toNat?_repr id
  refine (reads_upTo hstop).bind_nil fun rest => ?_
  rw [hdigits]
  rfl

/-! ## Entries -/

theorem toList_text (e : Entry) :
    e.text.toList =
      ['('] ++ (((toString e.key).toList ++ [',']) ++ ([' '] ++ ((toString e.id).toList ++ [')']))) := by
  have htext : e.text = "(" ++ toString e.key ++ ", " ++ toString e.id ++ ")" := rfl
  simp [htext]

theorem reads_entry (e : Entry) : Reads entry e.text.toList e := by
  rw [toList_text]
  exact (reads_pass '(').bind <| (reads_key e.key).bind <| (reads_pass ' ').bind <|
    (reads_element e.id).bind_nil (.pure e)

theorem entry_eq_none {text : List Char} (h : ∀ c ∈ text.head?, c ≠ '(') : entry text = none := by
  have hpass : pass '(' text = none := by
    cases text with
    | nil => rfl
    | cons c rest => exact if_neg (h c rfl)
  change (pass '(' text >>= fun _ => _) = none
  rw [hpass]
  rfl

/-- Entries are read until something follows that is neither a blank nor the bracket of an entry. -/
theorem entries_listText (es : List Entry) (rest : List Char)
    (hrest : ∀ c ∈ rest.head?, c ≠ '(' ∧ c ≠ ' ') :
    entries ((Entry.listText es).toList ++ rest) = some (es, rest) := by
  induction es with
  | nil =>
    rw [entries]
    simp [Entry.listText, entry_eq_none fun c hc => (hrest c hc).1]
  | cons e es ih =>
    rw [entries]
    cases es with
    | nil =>
      have htext : Entry.listText [e] = e.text := by simp [Entry.listText]
      rw [htext, reads_entry e rest]
      grind
    | cons e' es =>
      have htext : (Entry.listText (e :: e' :: es)).toList ++ rest =
          e.text.toList ++ ' ' :: ((Entry.listText (e' :: es)).toList ++ rest) := by
        simp [Entry.listText]
      have hshorter : ((Entry.listText (e' :: es)).toList ++ rest).length <
          (e.text.toList ++ ' ' :: ((Entry.listText (e' :: es)).toList ++ rest)).length := by
        simp only [List.length_append, List.length_cons]
        omega
      rw [htext, reads_entry e]
      simp only [if_pos hshorter, ih, Option.map_some]

/-! ## Messages -/

/-- A mutation is read with the blank behind it, where its last word ends. -/
theorem reads_mutation (m : Mutation) : Reads mutation (m.text.toList ++ [' ']) m := by
  cases m with
  | insert k id =>
    have htext : (Mutation.insert k id).text = "INSERT (" ++ toString k ++ ", " ++ toString id ++ ")" :=
      rfl
    have hparts : (Mutation.insert k id).text.toList ++ [' '] =
        ("INSERT".toList ++ [' ']) ++ ((Entry.text ⟨k, id⟩).toList ++ [' ']) := by
      simp [htext, toList_text]
    rw [hparts]
    exact (reads_upTo (by decide)).bind <| (reads_entry ⟨k, id⟩).bind <|
      (reads_pass ' ').bind_nil (.pure _)
  | update k id =>
    have htext : (Mutation.update k id).text = "UPDATE (" ++ toString k ++ ", " ++ toString id ++ ")" :=
      rfl
    have hparts : (Mutation.update k id).text.toList ++ [' '] =
        ("UPDATE".toList ++ [' ']) ++ ((Entry.text ⟨k, id⟩).toList ++ [' ']) := by
      simp [htext, toList_text]
    rw [hparts]
    exact (reads_upTo (by decide)).bind <| (reads_entry ⟨k, id⟩).bind <|
      (reads_pass ' ').bind_nil (.pure _)
  | removeMin =>
    have hparts : Mutation.removeMin.text.toList ++ [' '] =
        ("REM".toList ++ [' ']) ++ ("MIN".toList ++ [' ']) := by decide
    rw [hparts]
    exact (reads_upTo (by decide)).bind <| (reads_upTo (by decide)).bind_nil (.pure _)
  | remove id =>
    have htext : (Mutation.remove id).text = "REMOVE (" ++ toString id ++ ")" := rfl
    have hparts : (Mutation.remove id).text.toList ++ [' '] =
        ("REMOVE".toList ++ [' ']) ++ (['('] ++ (((toString id).toList ++ [')']) ++ [' '])) := by
      simp [htext]
    rw [hparts]
    exact (reads_upTo (by decide)).bind <| (reads_pass '(').bind <| (reads_element id).bind <|
      (reads_pass ' ').bind_nil (.pure _)
  | clear => exact (reads_upTo (by decide)).bind_nil (.pure _)

/-- The members are all entries up to the bracket that closes them. -/
theorem reads_members (es : List Entry) :
    Reads members (['['] ++ ((Entry.listText es).toList ++ [']'])) es := by
  refine (reads_pass '[').bind fun rest => ?_
  have hread : entries ((Entry.listText es).toList ++ ([']'] ++ rest)) = some (es, [']'] ++ rest) :=
    entries_listText es _ (by simp)
  change (entries ((Entry.listText es).toList ++ [']'] ++ rest) >>= fun read => _) = some (es, rest)
  rw [List.append_assoc, hread]
  rfl

/-- What a message about a moment begins with. -/
def mark : Moment → String
  | .before => "<<"
  | .after => ">>"

theorem reads_moment (m : Moment) : Reads moment ((mark m).toList ++ [' ']) m := by
  cases m with
  | before => exact (reads_upTo (by decide)).bind_nil (.pure _)
  | after => exact (reads_upTo (by decide)).bind_nil (.pure _)

theorem reads_callback (c : Callback) : Reads callback c.message.toList c := by
  have htext : c.message =
      mark c.moment ++ " " ++ c.mutation.text ++ " [" ++ Entry.listText c.members ++ "]" := rfl
  have hparts : c.message.toList = ((mark c.moment).toList ++ [' ']) ++
      ((c.mutation.text.toList ++ [' ']) ++ (['['] ++ ((Entry.listText c.members).toList ++ [']']))) := by
    simp [htext]
  rw [hparts]
  exact (reads_moment c.moment).bind <| (reads_mutation c.mutation).bind <|
    (reads_members c.members).bind_nil (.pure c)

end Reader

/-! ## No two texts are alike -/

theorem Entry.listText_injective : Function.Injective Entry.listText := by
  intro es es' heq
  have hread (es : List Entry) : Reader.entries (listText es).toList = some (es, []) := by
    simpa using Reader.entries_listText es [] (by simp)
  have hsame := (hread es).symm.trans (heq ▸ hread es')
  simpa using hsame

theorem Mutation.text_injective : Function.Injective Mutation.text := fun m m' heq =>
  (Reader.reads_mutation m).unique (heq ▸ Reader.reads_mutation m')

theorem Callback.message_injective : Function.Injective Callback.message := fun c c' heq =>
  (Reader.reads_callback c).unique (heq ▸ Reader.reads_callback c')

theorem Callback.ofMessage?_message (c : Callback) : Callback.ofMessage? c.message = some c := by
  have hread : Reader.callback c.message.toList = some (c, []) := by
    simpa using Reader.reads_callback c []
  simp [Callback.ofMessage?, hread]

/-- The text of a trace is unambiguous: no two lists of entries are written alike, no two mutations
are, and no two callbacks are, and a callback can be read off the message that it is written as. -/
theorem Callback.messages_unambiguous :
    Function.Injective Entry.listText ∧ Function.Injective Mutation.text ∧
      Function.Injective Callback.message ∧
      ∀ c : Callback, Callback.ofMessage? c.message = some c :=
  ⟨Entry.listText_injective, Mutation.text_injective, Callback.message_injective,
    Callback.ofMessage?_message⟩

example : Callback.ofMessage? ">> REMOVE (2) [(-3, 1) (5, 0)]" =
    some ⟨.after, .remove 2, [⟨-3, 1⟩, ⟨5, 0⟩]⟩ := by cbv

end AddressableHeap
