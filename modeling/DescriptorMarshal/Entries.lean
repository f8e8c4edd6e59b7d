/-!
Keyed entries that keep the order in which their keys first appeared. JSON objects, host objects
and the slots of native structures are all entries.
-/

namespace DescriptorMarshal

/-- A list of keys and values in order of first appearance. -/
abbrev Entries (α : Type) := List (String × α)

namespace Entries

variable {α : Type}

def get? : Entries α → String → Option α
  | [], _ => none
  | (name, value) :: rest, key => if name = key then some value else get? rest key

/-- Overwrites the entry under `key` in place, or adds one at the end. -/
def put : Entries α → String → α → Entries α
  | [], key, value => [(key, value)]
  | (name, old) :: rest, key, value =>
    if name = key then (key, value) :: rest else (name, old) :: put rest key value

/-- Puts the entries of a list one after the other, so a repeated key keeps its first place and
takes its last value. -/
def ofList (entries : List (String × α)) : Entries α :=
  entries.foldl (fun built entry => put built entry.1 entry.2) []

def keys (entries : Entries α) : List String := entries.map Prod.fst

theorem get?_put_self (entries : Entries α) (key : String) (value : α) :
    get? (put entries key value) key = some value := by
  induction entries with
  | nil => simp [put, get?]
  | cons entry rest ih =>
    by_cases h : entry.1 = key <;> simp [put, get?, h, ih]

theorem get?_put_of_ne (entries : Entries α) {key other : String} (value : α)
    (ne : key ≠ other) : get? (put entries key value) other = get? entries other := by
  induction entries with
  | nil => simp [put, get?, ne]
  | cons entry rest ih =>
    obtain ⟨name, old⟩ := entry
    by_cases h : name = key
    · subst h; simp [put, get?, ne]
    · simp [put, get?, h, ih]

/-- Overwriting changes no key and no order; a new key comes last. -/
theorem keys_put (entries : Entries α) (key : String) (value : α) :
    keys (put entries key value) =
      if key ∈ keys entries then keys entries else keys entries ++ [key] := by
  induction entries with
  | nil => simp [put, keys]
  | cons entry rest ih =>
    by_cases h : entry.1 = key
    · simp [put, keys, h]
    · have ne : ¬ key = entry.1 := fun e => h e.symm
      simp only [keys] at ih
      by_cases seen : key ∈ rest.map Prod.fst <;> simp [put, keys, h, ne, ih, seen]

theorem nodup_put {entries : Entries α} {key : String} {value : α} (h : (keys entries).Nodup) :
    (keys (put entries key value)).Nodup := by
  rw [keys_put]
  split
  · exact h
  · next hnew =>
    refine List.nodup_append.mpr ⟨h, List.pairwise_singleton _ key, ?_⟩
    rintro found hf _ hk rfl
    rw [List.mem_singleton.mp hk] at hf
    exact hnew hf

theorem mem_of_get? {entries : Entries α} {key : String} {value : α}
    (h : get? entries key = some value) : (key, value) ∈ entries := by
  induction entries with
  | nil => cases h
  | cons entry rest ih =>
    by_cases hk : entry.1 = key
    · simp only [get?, hk, if_true, Option.some.injEq] at h
      subst h hk
      exact List.mem_cons_self
    · simp only [get?, hk, if_false] at h
      exact List.mem_cons_of_mem _ (ih h)

theorem get?_of_mem_keys {entries : Entries α} {key : String} (h : key ∈ keys entries) :
    ∃ value, get? entries key = some value := by
  induction entries with
  | nil => cases h
  | cons entry rest ih =>
    by_cases hk : entry.1 = key
    · exact ⟨entry.2, by simp [get?, hk]⟩
    · have hr : key ∈ keys rest := by
        simpa [keys, Ne.symm hk] using h
      simpa [get?, hk] using ih hr

theorem mem_keys_of_mem {entries : Entries α} {entry : String × α} (h : entry ∈ entries) :
    entry.1 ∈ keys entries :=
  List.mem_map_of_mem h

theorem get?_of_mem {entries : Entries α} {entry : String × α} (hn : (keys entries).Nodup)
    (h : entry ∈ entries) : get? entries entry.1 = some entry.2 := by
  induction entries with
  | nil => cases h
  | cons head rest ih =>
    obtain ⟨hh, hr⟩ := List.nodup_cons.mp hn
    rcases List.mem_cons.mp h with rfl | h
    · simp [get?]
    · have hne : head.1 ≠ entry.1 := fun he => hh (he ▸ mem_keys_of_mem h)
      simpa [get?, hne] using ih hr h

theorem get?_of_notMem {entries : Entries α} {key : String} (h : key ∉ keys entries) :
    get? entries key = none := by
  cases hg : get? entries key with
  | none => rfl
  | some value => exact absurd (mem_keys_of_mem (mem_of_get? hg)) h

theorem put_eq_append {entries : Entries α} {key : String} {value : α}
    (h : key ∉ keys entries) : put entries key value = entries ++ [(key, value)] := by
  induction entries with
  | nil => rfl
  | cons entry rest ih =>
    have hne : entry.1 ≠ key := fun he => h (he ▸ List.mem_cons_self)
    have hr : key ∉ keys rest := fun hm => h (List.mem_cons_of_mem _ hm)
    rw [put, if_neg hne, ih hr, List.cons_append]

end Entries

end DescriptorMarshal
