/-
Lists of keys and values: query strings, forms and cookies.

`ParseKeyValueList` cuts its input at the separators and stores the decoded key and value
of every part that has a key, the first of equivalent keys.

* `keyValuePairs` — the keys and values that a text stands for;
* `parseKeyValueList_eq` — the loop stores them in their order;
* `HttpMap.find?_emplaceAll`, `HttpMap.mem_emplaceAll` — of equivalent keys the first one
  counts.
-/
import Droplet.Http.HttpMap

open Search

namespace Http

def hexValue (value : UInt8) : Option ℕ :=
  if 48 ≤ value && value ≤ 57 then some (value.toNat - 48)
  else
    let lowered := asciiLower value
    if 97 ≤ lowered && lowered ≤ 102 then some (lowered.toNat - 97 + 10) else none

/-- A plus sign is a space, and a percent sign with two hexadecimal digits a byte; a percent
sign without them stands for itself. -/
def urlDecode : Bytes → Bytes
  | [] => []
  | 43 :: rest => 32 :: urlDecode rest
  | 37 :: first :: second :: rest =>
    match hexValue first, hexValue second with
    | some high, some low => UInt8.ofNat (high * 16 + low) :: urlDecode rest
    | _, _ => 37 :: urlDecode (first :: second :: rest)
  | b :: rest => b :: urlDecode rest

/-- `Trim` where the parts are trimmed. -/
def trimPart (trimParts : Bool) (part : Bytes) : Bytes :=
  if trimParts then trimOptionalWhitespace part else part

/-- One part of the input, a key and possibly a value after the first equals sign. -/
def storePart (trimParts : Bool) (part : Bytes) (output : HttpMap) : HttpMap :=
  let part := trimPart trimParts part
  if part.isEmpty then output
  else
    let equal := find [61] part 0
    let key := match equal with
      | none => part
      | some equal => substr part 0 equal
    let value := match equal with
      | none => []
      | some equal => part.drop (equal + 1)
    let key := trimPart trimParts key
    let value := trimPart trimParts value
    if key.isEmpty then output else output.tryEmplace (urlDecode key) (urlDecode value)

/-- The loop over the parts; `begin` is where the next one begins. -/
def parseKeyValueLoop (input : Bytes) (separator : UInt8) (trimParts : Bool) (start : ℕ)
    (output : HttpMap) : HttpMap :=
  if start ≤ input.length then
    match _h : find [separator] input start with
    | none => storePart trimParts (substr input start (input.length - start)) output
    | some stop =>
      parseKeyValueLoop input separator trimParts (stop + 1)
        (storePart trimParts (substr input start (stop - start)) output)
  else output
termination_by input.length + 1 - start
decreasing_by
  have hle := le_of_find (by simp) _h
  have hlen := find_add_length_le (by simp) _h
  rw [List.length_singleton] at hlen
  omega

def parseKeyValueList (input : Bytes) (separator : UInt8) (output : HttpMap) (trimParts : Bool) :
    HttpMap :=
  parseKeyValueLoop input separator trimParts 0 output

/-! ### Keys and values -/

/-- The key and the value of a part that has a key. -/
def keyValue (trimParts : Bool) (part : Bytes) : Option (Bytes × Bytes) :=
  let part := trimPart trimParts part
  let key := trimPart trimParts (part.takeWhile (· != 61))
  let value := trimPart trimParts ((part.dropWhile (· != 61)).drop 1)
  if key.isEmpty then none else some (urlDecode key, urlDecode value)

/-- The keys and values of a text. -/
def keyValuePairs (separator : UInt8) (trimParts : Bool) (input : Bytes) : List (Bytes × Bytes) :=
  (input.splitOn separator).filterMap (keyValue trimParts)

/-- They are stored one after the other. -/
def HttpMap.emplaceAll (m : HttpMap) (pairs : List (Bytes × Bytes)) : HttpMap :=
  pairs.foldl (fun m pair => m.tryEmplace pair.1 pair.2) m

variable {trimParts : Bool} {separator : UInt8} {input part : Bytes} {output : HttpMap}

theorem storePart_eq (trimParts : Bool) (part : Bytes) (output : HttpMap) :
    storePart trimParts part output = output.emplaceAll (keyValue trimParts part).toList := by
  rw [storePart, keyValue]
  generalize trimPart trimParts part = part
  by_cases hempty : part = []
  · subst hempty
    have hnil : trimPart trimParts [] = [] := by cases trimParts <;> rfl
    simp [hnil, HttpMap.emplaceAll]
  · have hisEmpty : ¬ part.isEmpty = true := by simpa using hempty
    rw [if_neg hisEmpty]
    dsimp only
    -- the key is what stands before the first equals sign
    have hparts : (match find [61] part 0 with
          | none => part
          | some equal => substr part 0 equal) = part.takeWhile (· != 61) ∧
        (match find [61] part 0 with
          | none => []
          | some equal => part.drop (equal + 1)) = (part.dropWhile (· != 61)).drop 1 := by
      rcases hfind : find [61] part 0 with _ | equal
      · have hnone := find_single_eq_none_iff.mp hfind
        rw [takeWhile_of_notMem hnone, dropWhile_of_notMem hnone]
        exact ⟨rfl, rfl⟩
      · exact ⟨(takeWhile_of_find hfind).symm, (dropWhile_of_find hfind).symm⟩
    rw [hparts.1, hparts.2]
    split_ifs
    · rfl
    · rfl

/-- The parts of a text: what stands before the first separator, and the parts of what stands
after it. -/
theorem splitOn_of_find {start stop : ℕ} (h : find [separator] input start = some stop) :
    (input.drop start).splitOn separator =
      substr input start (stop - start) :: (input.drop (stop + 1)).splitOn separator := by
  rw [find_drop] at h
  obtain ⟨i, hi, rfl⟩ := Option.map_eq_some_iff.mp h
  obtain ⟨as, bs, hdrop, has, rfl⟩ := find_single_iff.mp hi
  have hrest : input.drop (as.length + start + 1) = bs := by
    rw [Nat.add_comm as.length, Nat.add_assoc, ← List.drop_drop, hdrop, ← List.drop_drop,
      List.drop_left]
    rfl
  rw [hrest, substr, hdrop, Nat.add_sub_cancel, List.take_left]
  exact List.splitOn_append_cons_self_of_not_mem has bs

/-- Without a separator the rest of the text is one part. -/
theorem splitOn_of_find_eq_none {start : ℕ} (h : find [separator] input start = none) :
    (input.drop start).splitOn separator = [substr input start (input.length - start)] := by
  rw [find_drop, Option.map_eq_none_iff] at h
  rw [List.splitOn_eq_singleton (find_single_eq_none_iff.mp h), substr, ← List.length_drop,
    List.take_length]

theorem HttpMap.emplaceAll_append (m : HttpMap) (as bs : List (Bytes × Bytes)) :
    m.emplaceAll (as ++ bs) = (m.emplaceAll as).emplaceAll bs := List.foldl_append

theorem parseKeyValueLoop_eq {start : ℕ} (h : start ≤ input.length) :
    parseKeyValueLoop input separator trimParts start output =
      output.emplaceAll (keyValuePairs separator trimParts (input.drop start)) := by
  -- by the number of bytes that the loop still has to look at
  induction hn : input.length - start using Nat.strong_induction_on generalizing start output with
  | _ n ih =>
    rw [parseKeyValueLoop, if_pos h, keyValuePairs]
    split
    · next hnone =>
      rw [splitOn_of_find_eq_none hnone, storePart_eq, List.filterMap_cons, List.filterMap_nil]
      cases keyValue trimParts (substr input start (input.length - start)) <;> rfl
    · next stop hstop =>
      have hle := le_of_find (by simp) hstop
      have hlen := find_add_length_le (by simp) hstop
      rw [List.length_singleton] at hlen
      rw [ih (input.length - (stop + 1)) (by omega) (by omega) rfl, splitOn_of_find hstop,
        storePart_eq, ← HttpMap.emplaceAll_append, List.filterMap_cons, keyValuePairs]
      cases keyValue trimParts (substr input start (stop - start)) <;> rfl

/-- The loop stores the keys and values of its input. -/
theorem parseKeyValueList_eq : parseKeyValueList input separator output trimParts =
    output.emplaceAll (keyValuePairs separator trimParts input) := by
  rw [parseKeyValueList, parseKeyValueLoop_eq (Nat.zero_le _), List.drop_zero]

/-- Of equivalent keys the first one counts, and what is there before. -/
theorem HttpMap.find?_emplaceAll (m : HttpMap) (pairs : List (Bytes × Bytes)) (key : Bytes) :
    (m.emplaceAll pairs).find? key =
      (m.find? key).or
        ((pairs.find? fun pair => caseInsensitiveEqual pair.1 key).map fun pair => pair.2) := by
  induction pairs generalizing m with
  | nil => rw [HttpMap.emplaceAll, List.foldl_nil, List.find?_nil, Option.map_none, Option.or_none]
  | cons pair pairs ih =>
    have hcons : m.emplaceAll (pair :: pairs) = (m.tryEmplace pair.1 pair.2).emplaceAll pairs := rfl
    rw [hcons, ih, HttpMap.find?_tryEmplace, Option.or_assoc, List.find?_cons]
    by_cases heq : caseInsensitiveEqual pair.1 key = true
    · rw [if_pos heq, heq]
      rfl
    · rw [if_neg heq, Bool.eq_false_of_not_eq_true heq, Option.none_or]

/-- What is stored is there already, or is the first of its key. -/
theorem HttpMap.mem_emplaceAll (m : HttpMap) (pairs : List (Bytes × Bytes)) (e : Bytes × Bytes) :
    e ∈ (m.emplaceAll pairs).entries ↔ e ∈ m.entries ∨ (m.find? e.1 = none ∧
      (pairs.find? fun pair => caseInsensitiveEqual pair.1 e.1) = some e) := by
  induction pairs generalizing m with
  | nil => simp [HttpMap.emplaceAll]
  | cons pair pairs ih =>
    have hcons : m.emplaceAll (pair :: pairs) = (m.tryEmplace pair.1 pair.2).emplaceAll pairs := rfl
    rw [hcons, ih, HttpMap.mem_tryEmplace, HttpMap.find?_tryEmplace, List.find?_cons]
    by_cases heq : caseInsensitiveEqual pair.1 e.1 = true
    · rw [if_pos heq, heq, m.find?_congr heq, Option.or_eq_none_iff]
      simp [eq_comm]
    · have hne : e ≠ pair := by
        rintro rfl
        exact heq (caseInsensitiveEqual_self _)
      rw [if_neg heq, Bool.eq_false_of_not_eq_true heq, Option.or_none]
      simp [hne]

end Http
