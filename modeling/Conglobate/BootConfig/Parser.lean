import Conglobate.BootConfig.Basic
import Mathlib.Data.List.DropRight

/- The bounded parser for Linux's boot configuration syntax
   (`boot_config/parser.rs`).

   The state holds the text still to be read instead of the whole text and an
   index into it; `offset` is the index, `at`, which errors name. A `while` over `peek` is
   `skipWhile`. The loops of `scope`, `array` and the comments between array
   values take fuel: each round reads at least one byte, so a round per byte of
   the text is enough, and `scope_fuel` says the fuel `parse` gives never runs
   out.

   Correspondence (Rust ↔ Lean):
     `self.text[self.at..]`            ↔ `Parser.rest`
     the key at the head of a round    ↔ `Parser.key`
     the arm for `=`, `:` and `+`      ↔ `Parser.assign`
     one pass of `loop` in `scope`     ↔ `Parser.round`
     `parse`, `scope`, `array`, `value`, `spaces`, `comment`,
       `check_nodes`                   ↔ the same names -/
namespace Conglobate.BootConfig

open Ascii

structure Parser where
  rest : Bytes
  offset : Nat
  values : Values
  keys : Finset Bytes
  allocatedValues : Nat

namespace Parser

def error (s : Parser) (reason : String) : Error := .syntaxError reason s.offset

def peek (s : Parser) : Option UInt8 := s.rest.head?

/-- `self.at += 1`. -/
def advance (s : Parser) : Parser := { s with rest := s.rest.tail, offset := s.offset + 1 }

/-- `while self.peek().is_some_and(p) { self.at += 1 }`. -/
def skipWhile (p : UInt8 → Bool) (s : Parser) : Parser :=
  { s with rest := s.rest.dropWhile p, offset := s.offset + (s.rest.takeWhile p).length }

def spaces (newlines : Bool) (s : Parser) : Parser :=
  s.skipWhile (fun c => space c && (newlines || c != newline))

def comment (s : Parser) : Parser := s.skipWhile (fun c => c != newline)

def checkNodes (s : Parser) : Except Error Unit :=
  if s.keys.card + s.allocatedValues > maxNodes then .error (s.error "Linux node limit exceeded")
  else .ok ()

/-- A value from behind its opening quote. -/
def quoted (quote : UInt8) (s : Parser) : Except Error (Bytes × Parser) :=
  if (s.skipWhile (fun c => c != quote)).peek.isNone then
    .error ((s.skipWhile (fun c => c != quote)).error "unterminated quoted value")
  else if ((s.skipWhile (fun c => c != quote)).advance.spaces false).peek.any (fun c => !delimiter c) then
    .error (((s.skipWhile (fun c => c != quote)).advance.spaces false).error "text after quoted value")
  else do
    checkValue (s.rest.takeWhile (fun c => c != quote))
    .ok (s.rest.takeWhile (fun c => c != quote), (s.skipWhile (fun c =>
      c != quote)).advance.spaces false)

/-- An unquoted value. Trailing blanks count at the end of the text, not before a
    delimiter. -/
def unquoted (s : Parser) : Except Error (Bytes × Parser) :=
  if (s.skipWhile (fun c => !delimiter c)).peek.isNone then do
    checkValue (s.rest.takeWhile (fun c => !delimiter c))
    .ok (s.rest.takeWhile (fun c => !delimiter c), s.skipWhile (fun c => !delimiter c))
  else do
    checkValue ((s.rest.takeWhile (fun c => !delimiter c)).rdropWhile space)
    .ok ((s.rest.takeWhile (fun c => !delimiter c)).rdropWhile space,
      s.skipWhile (fun c => !delimiter c))

def value (s : Parser) : Except Error (Bytes × Parser) :=
  match (s.spaces false).peek with
  | some c =>
    if c = singleQuote ∨ c = doubleQuote then quoted c (s.spaces false).advance
    else unquoted (s.spaces false)
  | none => unquoted (s.spaces false)

/-- The blanks and comments between two values of an array. -/
def skipComments : Nat → Parser → Parser
  | 0, s => s
  | fuel + 1, s =>
    if (s.spaces true).peek = some hash then skipComments fuel (s.spaces true).comment
    else s.spaces true

def arrayMore : Nat → List Bytes → Parser → Except Error (List Bytes × Parser)
  | 0, _, _ => .error .outOfFuel
  | fuel + 1, values, s =>
    if s.peek = some comma then do
      let (item, s') ← value (skipComments (s.rest.length + 1) s.advance)
      if (values ++ [item]).length > maxNodes then .error (s'.error "Linux node limit exceeded")
      else arrayMore fuel (values ++ [item]) s'
    else .ok (values, s)

def array (s : Parser) : Except Error (List Bytes × Parser) := do
  let (item, s') ← s.value
  arrayMore (s'.rest.length + 1) [item] s'

/-- The bytes of a key. -/
def wordByte (c : UInt8) : Bool := isAlphanumeric c || c == dot || c == hyphen || c == underscore

/-- `format!("{prefix}.{word}")`, or the word alone at the top. -/
def fullKey (scopeKey word : Bytes) : Bytes :=
  if scopeKey = [] then word else scopeKey ++ [dot] ++ word

/-- The key a round starts with: read, checked and counted. -/
def key (scopeKey : Bytes) (s : Parser) : Except Error (Bytes × Parser) :=
  if s.rest.takeWhile wordByte = [] then .error (s.error "expected key")
  else do
    checkKey (fullKey scopeKey (s.rest.takeWhile wordByte))
    checkNodes { s.skipWhile wordByte with
      keys := s.keys ∪ keyNodes (fullKey scopeKey (s.rest.takeWhile wordByte)) }
    .ok (fullKey scopeKey (s.rest.takeWhile wordByte),
      { s.skipWhile wordByte with
        keys := s.keys ∪ keyNodes (fullKey scopeKey (s.rest.takeWhile wordByte)) })

/-- `self.values.entry(key).or_default()`. -/
def enter (key : Bytes) (s : Parser) : Parser :=
  { s with values := if s.values.contains key then s.values else s.values.insert key [] }

/-- The values an assignment leaves, and the nodes it allocates: `:=` reuses the first
    node of what it replaces. -/
def store (op : UInt8) (key : Bytes) (values : List Bytes) (s : Parser) : Except Error Parser :=
  let current := (s.values.get? key).getD []
  if op = equals ∧ current ≠ [] then .error (s.error "duplicate value; use := or +=")
  else
    let stored : Parser :=
      if op = plus then
        { s with
          values := s.values.insert key (current ++ values)
          allocatedValues := s.allocatedValues + values.length }
      else
        { s with
          values := s.values.insert key values
          allocatedValues := s.allocatedValues + (values.length - if current = [] then 0 else 1) }
    do
      stored.checkNodes
      .ok stored

/-- An assignment from behind its first byte `op`. -/
def assign (op : UInt8) (key : Bytes) (s : Parser) : Except Error Parser :=
  if op ≠ equals ∧ s.peek ≠ some equals then .error (s.error "expected := or +=")
  else do
    let (values, s') ← array (if op = equals then s else s.advance)
    store op key values s'

/-- How a round of `scope` ends: the group is closed, the next round starts, or the
    group of `key` is read first. -/
inductive Round where
  | closed (s : Parser)
  | again (s : Parser)
  | group (key : Bytes) (s : Parser)

/-- What follows a key. -/
def operator (key : Bytes) (s : Parser) : Except Error Round :=
  match s.peek with
  | none => .error (s.error "bare key requires a delimiter")
  | some op =>
    if op = openBrace then .ok (.group key (s.enter key).advance)
    else if op = equals ∨ op = colon ∨ op = plus then do
      let assigned ← assign op key (s.enter key).advance
      .ok (.again assigned)
    else if op = semicolon ∨ op = newline then .ok (.again (s.enter key).advance)
    else if op = hash then .ok (.again (s.enter key).comment)
    else if op = closeBrace then .ok (.again (s.enter key))
    else .error (s.error "expected assignment, group, or delimiter")

/-- The body of the loop, its blanks skipped. -/
def round (scopeKey : Bytes) (s : Parser) : Except Error Round :=
  match s.peek with
  | none => if scopeKey = [] then .ok (.closed s) else .error (s.error "unclosed key group")
  | some c =>
    if c = semicolon then .ok (.again s.advance)
    else if c = hash then .ok (.again s.comment)
    else if c = closeBrace ∧ scopeKey ≠ [] then .ok (.closed s.advance)
    else do
      let (key, s') ← key scopeKey s
      operator key (s'.spaces false)

/-- The loop over one group, to its closing brace or, at the top, the end of the text. -/
def scope : Nat → Bytes → Parser → Except Error Parser
  | 0, _, _ => .error .outOfFuel
  | fuel + 1, scopeKey, s => do
    match ← round scopeKey (s.spaces true) with
    | .closed s' => .ok s'
    | .again s' => scope fuel scopeKey s'
    | .group key s' => do
      let inner ← scope fuel key s'
      scope fuel scopeKey inner

/-- The state `parse` starts from. -/
def start (text : Bytes) : Parser := ⟨text, 0, OrdMap.empty, ∅, 0⟩

def parse (text : Bytes) : Except Error Values :=
  if text.contains 0 then .error .nul
  else do
    let s ← scope (text.length + 1) [] (start text)
    if text ≠ [] ∧ s.values.entries = [] then .error (s.error "no keys")
    else .ok s.values

/-! The fuel never runs out. -/

/-- The computation does not run out of fuel, and what it returns satisfies `P`. -/
def Fueled {α : Type} (P : α → Prop) : Except Error α → Prop
  | .ok a => P a
  | .error e => e ≠ .outOfFuel

theorem Fueled.bind {α β : Type} {P : α → Prop} {Q : β → Prop} {x : Except Error α}
    {f : α → Except Error β} (hx : Fueled P x) (hf : ∀ a, P a → Fueled Q (f a)) :
    Fueled Q (x >>= f) := by
  cases x with
  | ok a => exact hf a hx
  | error e => exact hx

theorem Fueled.mono {α : Type} {P Q : α → Prop} {x : Except Error α} (hx : Fueled P x)
    (h : ∀ a, P a → Q a) :
    Fueled Q x := by
  cases x with
  | ok a => exact h a hx
  | error e => exact hx

theorem skipWhile_rest_le (p : UInt8 → Bool) (s : Parser) :
    (s.skipWhile p).rest.length ≤ s.rest.length :=
  s.rest.length_dropWhile_le p

theorem spaces_rest_le (newlines : Bool) (s : Parser) :
    (s.spaces newlines).rest.length ≤ s.rest.length :=
  skipWhile_rest_le _ s

theorem advance_rest_le (s : Parser) : s.advance.rest.length ≤ s.rest.length := by
  simp [advance]

theorem advance_rest_lt {s : Parser} {c : UInt8} (h : s.peek = some c) :
    s.advance.rest.length < s.rest.length := by
  cases hr : s.rest with
  | nil => simp [peek, hr] at h
  | cons b rest => simp [advance, hr]

/-- A scan past its first byte leaves less. -/
theorem skipWhile_rest_lt {p : UInt8 → Bool} {s : Parser} {c : UInt8} (h : s.peek = some c)
    (hp : p c = true) :
    (s.skipWhile p).rest.length < s.rest.length := by
  cases hr : s.rest with
  | nil => simp [peek, hr] at h
  | cons b rest =>
    rw [peek, hr, List.head?_cons, Option.some.injEq] at h
    rw [skipWhile, hr, h, List.dropWhile_cons_of_pos hp, List.length_cons]
    exact Nat.lt_succ_of_le (rest.length_dropWhile_le p)

theorem skipComments_rest_le (fuel : Nat) (s : Parser) :
    (skipComments fuel s).rest.length ≤ s.rest.length := by
  induction fuel generalizing s with
  | zero => exact Nat.le_refl _
  | succ fuel ih =>
    rw [skipComments]
    split
    · exact Nat.le_trans (ih _) (Nat.le_trans (skipWhile_rest_le _ _) (spaces_rest_le _ _))
    · exact spaces_rest_le _ _

theorem checkValue_fueled (v : Bytes) : Fueled (fun _ => True) (checkValue v) := by
  rw [checkValue]
  split
  · trivial
  · exact nofun

theorem checkNodes_fueled (s : Parser) : Fueled (fun _ => True) s.checkNodes := by
  rw [checkNodes]
  split
  · exact nofun
  · trivial

theorem quoted_fueled (quote : UInt8) (s : Parser) :
    Fueled (fun x => x.2.rest.length ≤ s.rest.length) (quoted quote s) := by
  rw [quoted]
  split
  · exact nofun
  · split
    · exact nofun
    · refine (checkValue_fueled _).bind (fun _ _ => ?_)
      exact Nat.le_trans (spaces_rest_le _ _) (Nat.le_trans (advance_rest_le _)
        (skipWhile_rest_le _ _))

theorem unquoted_fueled (s : Parser) :
    Fueled (fun x => x.2.rest.length ≤ s.rest.length) (unquoted s) := by
  rw [unquoted]
  split
  all_goals exact (checkValue_fueled _).bind (fun _ _ => skipWhile_rest_le _ s)

theorem value_fueled (s : Parser) : Fueled (fun x => x.2.rest.length ≤ s.rest.length) s.value := by
  have hspaces := spaces_rest_le false s
  rw [value]
  split
  · split
    · exact (quoted_fueled _ _).mono
        (fun _ h => Nat.le_trans h (Nat.le_trans (advance_rest_le _) hspaces))
    · exact (unquoted_fueled _).mono (fun _ h => Nat.le_trans h hspaces)
  · exact (unquoted_fueled _).mono (fun _ h => Nat.le_trans h hspaces)

/-- Each round of an array reads its comma. -/
theorem arrayMore_fueled {fuel : Nat} {values : List Bytes} {s : Parser}
    (h : s.rest.length < fuel) :
    Fueled (fun x => x.2.rest.length ≤ s.rest.length) (arrayMore fuel values s) := by
  induction fuel generalizing values s with
  | zero => omega
  | succ fuel ih =>
    rw [arrayMore]
    split
    · rename_i hcomma
      have hlt := advance_rest_lt hcomma
      have hskip := skipComments_rest_le (s.rest.length + 1) s.advance
      refine (value_fueled _).bind ?_
      rintro ⟨item, s'⟩ hx
      dsimp only at hx ⊢
      split
      · exact nofun
      · exact (ih (by omega)).mono (fun _ h => by omega)
    · exact Nat.le_refl s.rest.length

theorem array_fueled (s : Parser) : Fueled (fun x => x.2.rest.length ≤ s.rest.length) s.array :=
  (value_fueled s).bind (fun x hx =>
    (arrayMore_fueled (Nat.lt_succ_self x.2.rest.length)).mono (fun _ h => Nat.le_trans h hx))

theorem store_fueled (op : UInt8) (key : Bytes) (values : List Bytes) (s : Parser) :
    Fueled (fun t => t.rest.length ≤ s.rest.length) (store op key values s) := by
  rw [store]
  split
  · exact nofun
  · refine (checkNodes_fueled _).bind (fun _ _ => ?_)
    split
    all_goals exact Nat.le_refl s.rest.length

theorem assign_fueled (op : UInt8) (key : Bytes) (s : Parser) :
    Fueled (fun t => t.rest.length ≤ s.rest.length) (assign op key s) := by
  rw [assign]
  split
  · exact nofun
  · have hle : (if op = equals then s else s.advance).rest.length ≤ s.rest.length := by
      split
      · exact Nat.le_refl _
      · exact advance_rest_le s
    exact (array_fueled _).bind (fun x hx =>
      (store_fueled op key x.1 x.2).mono (fun _ h => Nat.le_trans h (Nat.le_trans hx hle)))

theorem key_fueled (scopeKey : Bytes) (s : Parser) :
    Fueled (fun x => x.2.rest.length < s.rest.length) (key scopeKey s) := by
  rw [key]
  split
  · intro h
    cases h
  · rename_i hword
    have hlt : (s.skipWhile wordByte).rest.length < s.rest.length := by
      cases hr : s.rest with
      | nil => simp [hr] at hword
      | cons c rest =>
        rw [← hr]
        refine skipWhile_rest_lt (c := c) (by rw [peek, hr]; rfl) ?_
        cases hc : wordByte c with
        | true => rfl
        | false => simp [hr, hc] at hword
    have hcheck : Fueled (fun _ => True) (checkKey
        (fullKey scopeKey (s.rest.takeWhile wordByte))) := by
      rw [checkKey]
      split
      · trivial
      · intro h
        cases h
    exact hcheck.bind (fun _ _ => (checkNodes_fueled _).bind (fun _ _ => hlt))

/-- What a round leaves: less, unless it closes the group. -/
def Round.Within (n : Nat) : Round → Prop
  | .closed s => s.rest.length ≤ n
  | .again s => s.rest.length < n
  | .group _ s => s.rest.length < n

theorem operator_fueled (key : Bytes) {s : Parser} {n : Nat} (h : s.rest.length < n) :
    Fueled (Round.Within n) (operator key s) := by
  have hadvance : (s.enter key).advance.rest.length < n :=
    Nat.lt_of_le_of_lt (advance_rest_le _) h
  rw [operator]
  split
  · exact nofun
  · split
    · exact hadvance
    · split
      · exact (assign_fueled _ _ _).bind (fun t ht => Nat.lt_of_le_of_lt ht hadvance)
      · split
        · exact hadvance
        · split
          · exact Nat.lt_of_le_of_lt (skipWhile_rest_le _ (s.enter key)) h
          · split
            · exact h
            · exact nofun

theorem round_fueled (scopeKey : Bytes) (s : Parser) :
    Fueled (Round.Within s.rest.length) (round scopeKey s) := by
  rw [round]
  split
  · split
    · exact Nat.le_refl _
    · exact nofun
  · rename_i c hpeek
    split
    · exact advance_rest_lt hpeek
    · split
      · rename_i hhash
        exact skipWhile_rest_lt hpeek (by rw [hhash]; decide)
      · split
        · exact advance_rest_le s
        · exact (key_fueled scopeKey s).bind
            (fun x hx => operator_fueled x.1 (Nat.lt_of_le_of_lt (spaces_rest_le _ _) hx))

theorem scope_fueled {fuel : Nat} (scopeKey : Bytes) {s : Parser} (h : s.rest.length < fuel) :
    Fueled (fun t => t.rest.length ≤ s.rest.length) (scope fuel scopeKey s) := by
  induction fuel generalizing scopeKey s with
  | zero => omega
  | succ fuel ih =>
    rw [scope]
    have hspaces := spaces_rest_le true s
    refine (round_fueled scopeKey (s.spaces true)).bind (fun r hr => ?_)
    cases r with
    | closed t => exact Nat.le_trans hr hspaces
    | again t =>
      have ht : t.rest.length < s.rest.length := Nat.lt_of_lt_of_le hr hspaces
      exact (ih scopeKey (by omega)).mono (fun _ h => by omega)
    | group key t =>
      have ht : t.rest.length < s.rest.length := Nat.lt_of_lt_of_le hr hspaces
      refine (ih key (s := t) (by omega)).bind (fun u hu => ?_)
      exact (ih scopeKey (by omega)).mono (fun _ h => by omega)

/-- **A round per byte is enough**: `parse` never runs out of fuel. -/
theorem scope_fuel (text : Bytes) : parse text ≠ .error .outOfFuel := by
  have h : Fueled (fun _ => True) (parse text) := by
    rw [parse]
    split
    · exact nofun
    · refine (scope_fueled [] (s := start text) (Nat.lt_succ_self text.length)).bind (fun s _ => ?_)
      split
      · exact nofun
      · trivial
  intro hout
  rw [hout] at h
  exact h rfl

end Parser

/-- `FromStr`. -/
def fromStr (text : Bytes) : Except Error BootConfig := do
  let values ← Parser.parse text
  tryFrom values

end Conglobate.BootConfig
