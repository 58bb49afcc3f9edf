import Conglobate.BootConfig.Basic

/- What a boot configuration text says, apart from how it is written.

   A `Document` is a text's statements as they are nested. Its meaning is that of
   the flat list of its dotted statements, folded from the left over the values
   (`Flat.apply`); a group is the bare mention of its key, then its statements
   with the key in front.

   `Document.eval` adds the limits a reader keeps: valid keys and values, and the
   node budget, which counts the values ever allocated. Evaluating a group is
   evaluating the statements it flattens to (`eval_dotted`), so flattening any
   group of a document changes nothing (`Rewrites.eval`). -/
namespace Conglobate.BootConfig

open Ascii

/-- `=`, `:=` and `+=`. -/
inductive Operator where
  | set
  | replace
  | append
  deriving DecidableEq, Repr

/-- The statements of a scope, each before the rest. -/
inductive Document where
  | done
  | bare (word : Bytes) (next : Document)
  | assign (word : Bytes) (op : Operator) (values : List Bytes) (next : Document)
  | group (word : Bytes) (body next : Document)
  deriving DecidableEq, Repr

/-- A statement of the whole text, its key written out. -/
inductive Flat where
  | mention (key : Bytes)
  | assign (key : Bytes) (op : Operator) (values : List Bytes)
  deriving DecidableEq, Repr

/-- A key in the scope of another: the word alone at the top, dotted below. -/
def dottedKey (scopeKey word : Bytes) : Bytes :=
  if scopeKey = [] then word else scopeKey ++ [dot] ++ word

/-- The dotted statements of a document in a scope. -/
def Document.flatten (scopeKey : Bytes) : Document → List Flat
  | .done => []
  | .bare word next => .mention (dottedKey scopeKey word) :: next.flatten scopeKey
  | .assign word op values next =>
    .assign (dottedKey scopeKey word) op values :: next.flatten scopeKey
  | .group word body next =>
    .mention (dottedKey scopeKey word) :: (body.flatten
      (dottedKey scopeKey word) ++ next.flatten scopeKey)

/-- `+=` appends, `:=` replaces, `=` sets a key that has no values, and a mention changes
    no values that are there. -/
def Flat.apply (values : Values) : Flat → Option Values
  | .mention key => some (if values.contains key then values else values.insert key [])
  | .assign key op new =>
    match op, (values.get? key).getD [] with
    | .append, current => some (values.insert key (current ++ new))
    | .replace, _ => some (values.insert key new)
    | .set, [] => some (values.insert key new)
    | .set, _ :: _ => none

/-- The left-to-right fold of a document. -/
def Document.fold (document : Document) : Option Values :=
  (document.flatten []).foldlM Flat.apply OrdMap.empty

/-! The limits. -/

/-- What a reader has counted: the values, the keys with their ancestors, and every value
    node allocated. -/
structure Tally where
  values : Values
  keys : Finset Bytes
  allocated : Nat

namespace Tally

def empty : Tally := ⟨OrdMap.empty, ∅, 0⟩

/-- A key met: valid, and within the budget. -/
def mention (t : Tally) (key : Bytes) : Option Tally :=
  if keyValid key ∧ (t.keys ∪ keyNodes key).card + t.allocated ≤ maxNodes then
    some { t with
      values := if t.values.contains key then t.values else t.values.insert key []
      keys := t.keys ∪ keyNodes key }
  else none

/-- The nodes an assignment adds: `:=` reuses the first of those it replaces. -/
def fresh (op : Operator) (current new : List Bytes) : Nat :=
  match op with
  | .append => new.length
  | _ => new.length - if current = [] then 0 else 1

/-- An assignment to a key met before. -/
def assign (t : Tally) (key : Bytes) (op : Operator) (new : List Bytes) : Option Tally :=
  if (∀ v ∈ new, checkValue v = .ok ()) ∧ new.length ≤ maxNodes ∧
      t.keys.card + (t.allocated + fresh op ((t.values.get? key).getD []) new) ≤ maxNodes then
    (Flat.apply t.values (.assign key op new)).map (fun values =>
      { t with values, allocated := t.allocated + fresh op ((t.values.get? key).getD []) new })
  else none

end Tally

/-- A document read in a scope. -/
def Document.eval (scopeKey : Bytes) : Document → Tally → Option Tally
  | .done, t => some t
  | .bare word next, t => (t.mention (dottedKey scopeKey word)).bind (next.eval scopeKey)
  | .assign word op values next, t =>
    ((t.mention (dottedKey scopeKey word)).bind
      (fun t => t.assign (dottedKey scopeKey word) op values)).bind (next.eval scopeKey)
  | .group word body next, t =>
    ((t.mention (dottedKey scopeKey word)).bind (body.eval (dottedKey scopeKey word))).bind
      (next.eval scopeKey)

/-! Reading within the limits is folding. -/

theorem mention_values {t t' : Tally} {key : Bytes} (h : t.mention key = some t') :
    Flat.apply t.values (.mention key) = some t'.values := by
  rw [Tally.mention] at h
  split at h
  · cases h
    rfl
  · cases h

theorem assign_values {t t' : Tally} {key : Bytes} {op : Operator} {new : List Bytes}
    (h : t.assign key op new = some t') : Flat.apply t.values (.assign key op new) =
    some t'.values := by
  rw [Tally.assign] at h
  split at h
  · obtain ⟨values, hvalues, rfl⟩ := Option.map_eq_some_iff.mp h
    exact hvalues
  · cases h

/-- A key met once more has the values it has. -/
theorem apply_assign_mentioned {values values' : Values} {key : Bytes} {op : Operator}
    {new : List Bytes} (h : Flat.apply values (.mention key) = some values') :
    Flat.apply values' (.assign key op new) = Flat.apply values (.assign key op new) := by
  cases Option.some.inj h
  split
  · rfl
  · rename_i hnew
    rw [Bool.not_eq_true, OrdMap.contains_eq_false] at hnew
    have hinsert : ∀ v w, (values.insert key v).insert key w = values.insert key w := by
      intro v w
      apply OrdMap.ext_get?
      intro k
      rw [OrdMap.get?_insert, OrdMap.get?_insert, OrdMap.get?_insert]
      split <;> rfl
    cases op <;> simp [Flat.apply, OrdMap.get?_insert, hnew, hinsert]

/-- **Reading is folding**: the limits reject, and change no value. -/
theorem eval_values {document : Document} {scopeKey : Bytes} {t t' : Tally}
    (h : document.eval scopeKey t = some t') :
    (document.flatten scopeKey).foldlM Flat.apply t.values = some t'.values := by
  induction document generalizing scopeKey t t' with
  | done =>
    cases h
    rfl
  | bare word next ih =>
    obtain ⟨u, hu, h⟩ := Option.bind_eq_some_iff.mp h
    rw [Document.flatten, List.foldlM_cons, mention_values hu]
    exact ih h
  | assign word op values next ih =>
    obtain ⟨w, hw, h⟩ := Option.bind_eq_some_iff.mp h
    obtain ⟨u, hu, hw⟩ := Option.bind_eq_some_iff.mp hw
    have happly := assign_values hw
    rw [apply_assign_mentioned (mention_values hu)] at happly
    rw [Document.flatten, List.foldlM_cons, happly]
    exact ih h
  | group word body next ihbody ihnext =>
    obtain ⟨w, hw, h⟩ := Option.bind_eq_some_iff.mp h
    obtain ⟨u, hu, hw⟩ := Option.bind_eq_some_iff.mp hw
    rw [Document.flatten, List.foldlM_cons, mention_values hu]
    show List.foldlM Flat.apply u.values (_ ++ _) = _
    rw [List.foldlM_append, ihbody hw]
    exact ihnext h

/-! Groups written out. -/

/-- The statements of a group of `word`, dotted, before the statements behind the group. -/
def Document.dotted (word : Bytes) : Document → Document → Document
  | .done, next => next
  | .bare w body, next => .bare (word ++ [dot] ++ w) (body.dotted word next)
  | .assign w op values body, next => .assign (word ++ [dot] ++ w) op values (body.dotted word next)
  | .group w inner body, next =>
    .bare (word ++ [dot] ++ w) (inner.dotted (word ++ [dot] ++ w) (body.dotted word next))

/-- One group, anywhere in a document, written as the mention of its key and its dotted statements. -/
inductive Document.Rewrites : Document → Document → Prop
  | here (word : Bytes) (body next : Document) :
      Rewrites (.group word body next) (.bare word (body.dotted word next))
  | bare (word : Bytes) {next next' : Document} :
      Rewrites next next' → Rewrites (.bare word next) (.bare word next')
  | assign (word : Bytes) (op : Operator) (values : List Bytes) {next next' : Document} :
      Rewrites next next' → Rewrites (.assign word op values next) (.assign word op values next')
  | body (word : Bytes) {body body' : Document} (next : Document) :
      Rewrites body body' → Rewrites (.group word body next) (.group word body' next)
  | next (word : Bytes) (body : Document) {next next' : Document} :
      Rewrites next next' → Rewrites (.group word body next) (.group word body next')

/-- Dotting a word behind another is entering the scopes one by one. -/
theorem dottedKey_dotted {scopeKey word : Bytes} (h : dottedKey scopeKey word ≠ []) (w : Bytes) :
    dottedKey scopeKey (word ++ [dot] ++ w) = dottedKey (dottedKey scopeKey word) w := by
  rw [dottedKey.eq_def (dottedKey scopeKey word), if_neg h]
  unfold dottedKey
  split
  · rfl
  · simp only [List.append_assoc]

theorem dottedKey_ne_nil {scopeKey word : Bytes} (h : word ≠ []) :
    dottedKey scopeKey word ≠ [] := by
  rw [dottedKey]
  split
  · exact h
  · simp

/-- **A group read is its dotted statements read.** -/
theorem eval_dotted {body : Document} {scopeKey word : Bytes} (h : dottedKey scopeKey word ≠ [])
    (next : Document) (t : Tally) : (body.dotted word next).eval scopeKey t =
      (body.eval (dottedKey scopeKey word) t).bind (next.eval scopeKey) := by
  induction body generalizing word next t with
  | done => rfl
  | bare w body ih =>
    rw [Document.dotted, Document.eval, Document.eval, dottedKey_dotted h, Option.bind_assoc]
    congr 1
    funext u
    exact ih h next u
  | assign w op values body ih =>
    rw [Document.dotted, Document.eval, Document.eval, dottedKey_dotted h, Option.bind_assoc,
      Option.bind_assoc, Option.bind_assoc]
    congr 1
    funext u
    congr 1
    funext u'
    exact ih h next u'
  | group w inner body ihinner ihbody =>
    have hinner : dottedKey scopeKey (word ++ [dot] ++ w) ≠ [] := dottedKey_ne_nil (by simp)
    rw [Document.dotted, Document.eval, Document.eval, dottedKey_dotted h, Option.bind_assoc,
      Option.bind_assoc]
    congr 1
    funext u
    rw [ihinner hinner, dottedKey_dotted h]
    congr 1
    funext u'
    exact ihbody h next u'

/-- The empty key is no key. -/
theorem mention_nil (t : Tally) : t.mention [] = none :=
  if_neg (fun h => absurd h.1 (by decide))

/-- **Writing out a group changes nothing**: neither the values nor whether the document is read. -/
theorem Document.Rewrites.eval {d d' : Document} (h : d.Rewrites d') (scopeKey : Bytes)
    (t : Tally) :
    d.eval scopeKey t = d'.eval scopeKey t := by
  induction h generalizing scopeKey t with
  | here word body next =>
    rw [Document.eval, Document.eval, Option.bind_assoc]
    by_cases hkey : dottedKey scopeKey word = []
    · rw [hkey, mention_nil]
      rfl
    · congr 1
      funext u
      exact (eval_dotted hkey next u).symm
  | bare word _ ih =>
    rw [Document.eval, Document.eval]
    congr 1
    funext u
    exact ih scopeKey u
  | assign word op values _ ih =>
    rw [Document.eval, Document.eval]
    congr 1
    funext u
    exact ih scopeKey u
  | body word next _ ih =>
    rw [Document.eval, Document.eval]
    congr 2
    funext u
    exact ih (dottedKey scopeKey word) u
  | next word body _ ih =>
    rw [Document.eval, Document.eval]
    congr 1
    funext u
    exact ih scopeKey u

end Conglobate.BootConfig
