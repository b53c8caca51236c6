import Onedis.Store.ListPipeline
import Onedis.Store.SubKeys

/-!
# list の命令

書く命令は、詰めた list を分け、`ListMeta` を読み、番地を計算して要素の record を書き換える。

`spec` は、ただの列の上の同じ命令である。
-/

namespace Onedis.Store

open Infra Function
open Codec (wrongTypeError)

def i64Min : Int := -(2 ^ 63)

def i64Max : Int := 2 ^ 63 - 1

def usizeMax : Nat := 2 ^ 64 - 1

/-! ## 添字 -/

def resolveListRange (m : ListMeta) (start stop : Int) : Option (Int × Int) :=
  let len := m.tail - m.head
  if len ≤ 0 then none
  else
    let first := max (if start < 0 then len + start else start) 0
    let last := min (if stop < 0 then len + stop else stop) (len - 1)
    if last < first ∨ len ≤ first ∨ last < 0 then none else some (m.head + first, m.head + last)

/-! ## 書き換える命令 -/

def ListStore.putItems (s : ListStore) (key : Bytes) (ver : Nat) (items : Slots Bytes) :
    ListStore :=
  { s with slots := update s.slots key ((s.slots key).setItems ver items) }

section

variable (serde : Codec.Serde) (now : Nat)

/-- `list_set_async` -/
def listSet (key : Bytes) (index : Int) (value : Bytes) (s : ListStore) :
    Except String Unit × ListStore :=
  match (s.promote key).listMeta serde now key with
  | (.error msg, s) => (.error msg, s)
  | (.ok none, s) => (.error "ERR no such key", s)
  | (.ok (some m), s) =>
    match resolveListIndex m index with
    | none => (.error "ERR index out of range", s)
    | some i => (.ok (), s.putItems key m.version (((s.slots key).items m.version).put i value))

/-- `list_trim_async` -/
def listTrim (key : Bytes) (start stop : Int) (s : ListStore) : Except String Unit × ListStore :=
  match (s.promote key).listMeta serde now key with
  | (.error msg, s) => (.error msg, s)
  | (.ok none, s) => (.ok (), s)
  | (.ok (some m), s) =>
    let recs := s.slots key
    let items := recs.items m.version
    match resolveListRange m start stop with
    | none =>
      (.ok (), s.commit s.counter [key]
        (fun _ => dropListMeta recs m (deleteListRange items m.head m.tail)) (m.head < m.tail))
    | some (first, last) =>
      (.ok (), s.commit s.counter [key]
        (fun _ => putListMeta recs { m with head := first, tail := last + 1 }
          (deleteListRange (deleteListRange items m.head first) (last + 1) m.tail))
        (m.head < first ∨ last + 1 < m.tail))

/-- 前から順に、等しい要素の位置を集める。`limit` 個になったら止まる。 -/
def visitMatches (target : Bytes) (limit : Nat) : Nat → List Nat → List Bytes → List Nat
  | _, found, [] => found
  | position, found, value :: rest =>
    if found.length = limit then found
    else
      let found := if value = target then found ++ [position] else found
      if found.length ≠ limit then visitMatches target limit (position + 1) found rest else found

def visitMatchesReverse (target : Bytes) (limit : Nat) : Nat → List Nat → List Bytes → List Nat
  | _, found, [] => found
  | position, found, value :: rest =>
    if found.length = limit then found
    else
      let position := position - 1
      let found := if value = target then found ++ [position] else found
      if found.length ≠ limit then visitMatchesReverse target limit position found rest else found

def removalPositions (target : Bytes) (count : Int) (content : List Bytes) : List Nat :=
  let limit := if count = 0 then usizeMax else count.natAbs
  if count < 0 then (visitMatchesReverse target limit content.length [] content.reverse).reverse
  else visitMatches target limit 0 [] content

/-- 消した位置を、近い方の端へ詰める。 -/
def compactList (recs : ListRecords) (m : ListMeta) (found : List Nat) (first last : Nat) :
    ListMeta × Slots Bytes :=
  let items := recs.items m.version
  let removed := found.length
  let len := (m.tail - m.head).toNat
  if len - first - removed ≤ last + 1 - removed then
    let start := m.head + first
    let updated := { m with tail := m.tail - removed }
    (updated, deleteListRange
      (Slots.compactLeft found m.head items first start
        (listRangeValues recs m.version start (m.tail - 1))) updated.tail m.tail)
  else
    let stop := m.head + last
    let updated := { m with head := m.head + removed }
    (updated, deleteListRange
      (Slots.compactRight m.head items found.reverse (stop + 1)
        (listRangeValues recs m.version m.head stop).reverse) m.head updated.head)

/-- `list_remove_async` -/
def listRemove (key : Bytes) (count : Int) (element : Bytes) (s : ListStore) :
    Except String Nat × ListStore :=
  match (s.promote key).listMeta serde now key with
  | (.error msg, s) => (.error msg, s)
  | (.ok none, s) => (.ok 0, s)
  | (.ok (some m), s) =>
    let recs := s.slots key
    let content := listRangeValues recs m.version m.head (m.tail - 1)
    match removalPositions element count content with
    | [] => (.ok 0, s)
    | first :: more =>
      let found := first :: more
      if found.length = (m.tail - m.head).toNat then
        (.ok found.length, (s.commit s.counter [key]
          (fun _ => dropListMeta recs m (deleteListRange (recs.items m.version) m.head m.tail))
          true).forget key)
      else
        let out := compactList recs m found first (more.getLastD first)
        (.ok found.length, (s.commit s.counter [key]
          (fun _ => putListMeta recs out.1 out.2) true).remember key out.1)

/-- `build_list_insert_batch`。挿入する位置から近い側をずらす。 -/
def insertIntoList (recs : ListRecords) (m : ListMeta) (content : List Bytes) (index : Nat)
    (element : Bytes) : Except String (ListMeta × Slots Bytes) :=
  let items := recs.items m.version
  let canGrowLeft := decide (i64Min < m.head)
  let canGrowRight := decide (m.tail < i64Max)
  if !canGrowLeft && !canGrowRight then .error "ERR list index space exhausted"
  else if canGrowLeft && (!canGrowRight || decide (index ≤ content.length - index)) then
    .ok ({ m with head := m.head - 1 },
      (items.writeFrom (m.head - 1) (content.take index)).put (m.head + index - 1) element)
  else
    .ok ({ m with tail := m.tail + 1 },
      (items.writeFrom (m.head + index + 1) (content.drop index)).put (m.head + index) element)

/-- `list_insert_async` -/
def listInsert (key : Bytes) (before : Bool) (pivot element : Bytes) (s : ListStore) :
    Except String Int × ListStore :=
  match (s.promote key).listMeta serde now key with
  | (.error msg, s) => (.error msg, s)
  | (.ok none, s) => (.ok 0, s)
  | (.ok (some m), s) =>
    let recs := s.slots key
    let content := listRangeValues recs m.version m.head (m.tail - 1)
    match content.findIdx? (· = pivot) with
    | none => (.ok (-1), s)
    | some position =>
      let index := if before then position else position + 1
      match insertIntoList recs m content index element with
      | .error msg => (.error msg, s)
      | .ok (updated, items) =>
        (.ok (updated.tail - updated.head), (s.commit s.counter [key]
          (fun _ => putListMeta recs updated items) false).remember key updated)

def ListMeta.popOne (m : ListMeta) (left : Bool) : Int × ListMeta :=
  if left then (m.head, { m with head := m.head + 1 })
  else (m.tail - 1, { m with tail := m.tail - 1 })

def ListMeta.pushOne (m : ListMeta) (left : Bool) : Int × ListMeta :=
  if left then (m.head - 1, { m with head := m.head - 1 })
  else (m.tail, { m with tail := m.tail + 1 })

/-- 端の要素を移す。空になった移し元は消える。 -/
def moveElement (src dest : Bytes) (srcLeft destLeft : Bool)
    (sourceMeta destinationMeta : ListMeta) (value : Bytes) (s : ListStore) : ListStore :=
  let popped := sourceMeta.popOne srcLeft
  let sourceItems := ((s.slots src).items sourceMeta.version).remove popped.1
  if src = dest then
    let pushed := popped.2.pushOne destLeft
    (s.commit s.counter [src]
      (fun _ => putListMeta (s.slots src) pushed.2 (sourceItems.put pushed.1 value))
      false).remember src pushed.2
  else
    let pushed := destinationMeta.pushOne destLeft
    let emptied := decide (popped.2.tail ≤ popped.2.head)
    let sourceRecs :=
      if emptied then dropListMeta (s.slots src) popped.2 sourceItems
      else putListMeta (s.slots src) popped.2 sourceItems
    let destinationRecs := putListMeta (s.slots dest) pushed.2
      (((s.slots dest).items destinationMeta.version).put pushed.1 value)
    let s := s.commit s.counter [src, dest]
      (fun key => if key = src then sourceRecs else destinationRecs) false
    let s := if emptied then s.forget src else s.remember src popped.2
    s.remember dest pushed.2

def listUtf8Error : String := "ERR list element is not valid UTF-8"

/-- `list_move_async_unlocked`。移す先の version は、使わなくても配られる。 -/
def listMove (src dest : Bytes) (srcLeft destLeft : Bool) (s : ListStore) :
    Except String (Option Bytes) × ListStore :=
  let s := s.promote src
  let s := if src = dest then s else s.promote dest
  match s.listMeta serde now src with
  | (.error msg, s) => (.error msg, s)
  | (.ok none, s) => (.ok none, s)
  | (.ok (some sourceMeta), s) =>
    if sourceMeta.tail ≤ sourceMeta.head then (.ok none, s)
    else
      let opened : Except String ListMeta × ListStore :=
        if src = dest then (.ok sourceMeta, s)
        else
          match s.listMeta serde now dest with
          | (.error msg, s) => (.error msg, s)
          | (.ok found, s) =>
            (.ok (found.getD ⟨0, s.counter + 1, 0, 0⟩), { s with counter := s.counter + 1 })
      match opened with
      | (.error msg, s) => (.error msg, s)
      | (.ok destinationMeta, s) =>
        match ((s.slots src).items sourceMeta.version).get (sourceMeta.popOne srcLeft).1 with
        | none => (.ok none, s)
        | some value =>
          if validUtf8 value then
            (.ok (some value), moveElement src dest srcLeft destLeft
              sourceMeta destinationMeta value s)
          else (.error listUtf8Error, s)

/-! ## 読む命令 -/

/-- `list_index_async`。UTF-8 でない要素は返さない。 -/
def listIndex (key : Bytes) (index : Int) (s : ListStore) :
    Except String (Option Bytes) × ListStore :=
  match s.listMeta serde now key with
  | (.error msg, s) => (.error msg, s)
  | (.ok none, s) => (.ok none, s)
  | (.ok (some m), s) =>
    match resolveListIndex m index with
    | none => (.ok none, s)
    | some i =>
      let value :=
        if m.version = 0 then (listRangeValues (s.slots key) m.version i i).head?
        else ((s.slots key).items m.version).get i
      (.ok (value.filter validUtf8), s)

/-- `list_len_async` -/
def listLen (key : Bytes) (s : ListStore) : Except String Nat × ListStore :=
  match s.listMeta serde now key with
  | (.error msg, s) => (.error msg, s)
  | (.ok found, s) => (.ok ((found.map fun m => (m.tail - m.head).toNat).getD 0), s)

def listRangeUtf8Error : String := "ERR invalid UTF-8 list value"

/-- `list_range_async`。UTF-8 でない要素が一つでもあれば失敗する。 -/
def listRange (key : Bytes) (start stop : Int) (s : ListStore) :
    Except String (List Bytes) × ListStore :=
  match s.listMeta serde now key with
  | (.error msg, s) => (.error msg, s)
  | (.ok none, s) => (.ok [], s)
  | (.ok (some m), s) =>
    match resolveListRange m start stop with
    | none => (.ok [], s)
    | some (first, last) =>
      let values := listRangeValues (s.slots key) m.version first last
      if values.all validUtf8 then (.ok values, s) else (.error listRangeUtf8Error, s)

end

/-- `matches_lpos_count` -/
def matchesLposCount (count : Option Nat) (matched : Nat) : Bool :=
  match count with
  | some 0 => false
  | some limit => decide (limit ≤ matched)
  | none => true

/-- 等しい要素を数え、`reached` になってからの位置を `count` 個まで集める。 -/
def lposLoop (element : Bytes) (delta : Int) (reached : Int → Bool) (count : Option Nat) :
    Int → List Nat → List (Bytes × Nat) → List Nat
  | _, found, [] => found
  | seen, found, (value, position) :: rest =>
    if value = element then
      let seen := seen + delta
      if reached seen then
        let found := found ++ [position]
        if matchesLposCount count found.length then found
        else lposLoop element delta reached count seen found rest
      else lposLoop element delta reached count seen found rest
    else lposLoop element delta reached count seen found rest

/-- `list_positions_async` -/
def listPositions (serde : Codec.Serde) (now : Nat) (key element : Bytes) (rank : Int)
    (count maxlen : Option Nat) (s : ListStore) : Except String (List Nat) × ListStore :=
  match listRange serde now key 0 (-1) s with
  | (.error msg, s) => (.error msg, s)
  | (.ok items, s) =>
    if items.isEmpty ∨ maxlen = some 0 then (.ok [], s)
    else
      let limit := maxlen.getD usizeMax
      if 0 < rank then (.ok (lposLoop element 1 (rank ≤ ·) count 0 [] (items.zipIdx.take limit)), s)
      else (.ok (lposLoop element (-1) (· ≤ rank) count 0 [] (items.zipIdx.reverse.take limit)), s)

/-! ## 命令 -/

/-- list の命令。 -/
inductive ListCommand
  | push (c : ListPush)
  | pop (key : Bytes) (left : Bool) (count : Option Nat)
  | set (key : Bytes) (index : Int) (value : Text)
  | trim (key : Bytes) (start stop : Int)
  | rem (key : Bytes) (count : Int) (element : Text)
  | insert (key : Bytes) (before : Bool) (pivot element : Text)
  | move (src dest : Bytes) (srcLeft destLeft : Bool)
  | index (key : Bytes) (index : Int)
  | len (key : Bytes)
  | pos (key : Bytes) (element : Text) (rank : Int) (count maxlen : Option Nat)
  | range (key : Bytes) (start stop : Int)
  deriving DecidableEq

/-- 命令の返事。 -/
inductive ListReply
  | failed (msg : String)
  | done
  | number (n : Int)
  | element (value : Option Bytes)
  | elements (values : List Bytes)
  | positions (found : List Nat)
  deriving DecidableEq

def ListReply.of {α : Type} (f : α → ListReply) : Except String α → ListReply
  | .error msg => .failed msg
  | .ok a => f a

namespace ListCommand

def answer {α : Type} (f : α → ListReply) (out : Except String α × ListStore) :
    ListReply × ListStore := (.of f out.1, out.2)

def single {α : Type} (fallback : α) (out : List (Except String α) × ListStore) :
    Except String α × ListStore := (out.1.headD (.ok fallback), out.2)

/-- store の上で命令を実行する。 -/
def exec (serde : Codec.Serde) (now : Nat) : ListCommand → ListStore → ListReply × ListStore
  | push c, s => answer (fun n : Nat => .number n) (single 0 (listPushBatch serde now [c] s))
  | pop key left none, s =>
    answer (fun values => .element (values.head?.filter validUtf8))
      (single [] (listPopBatch now [⟨key, left, 1⟩] s))
  | pop key left (some count), s =>
    answer (fun values => .elements (values.filter validUtf8))
      (single [] (listPopBatch now [⟨key, left, count⟩] s))
  | set key i value, s => answer (fun _ => .done) (listSet serde now key i value.bytes s)
  | trim key start stop, s => answer (fun _ => .done) (listTrim serde now key start stop s)
  | rem key count element, s =>
    answer (fun n : Nat => .number n) (listRemove serde now key count element.bytes s)
  | insert key before pivot element, s =>
    answer .number (listInsert serde now key before pivot.bytes element.bytes s)
  | move src dest srcLeft destLeft, s =>
    answer .element (listMove serde now src dest srcLeft destLeft s)
  | index key i, s => answer .element (listIndex serde now key i s)
  | len key, s => answer (fun n : Nat => .number n) (listLen serde now key s)
  | pos key element rank count maxlen, s =>
    answer .positions (listPositions serde now key element.bytes rank count maxlen s)
  | range key start stop, s => answer .elements (listRange serde now key start stop s)

end ListCommand

/-! ## ただの列の上の仕様 -/

def fromEnd (len : Nat) (index : Int) : Int := if index < 0 then len + index else index

def indexIn (len : Nat) (index : Int) : Option Nat :=
  if 0 ≤ fromEnd len index ∧ fromEnd len index < len then some (fromEnd len index).toNat else none

/-- `start` 番目から `stop` 番目までの部分。 -/
def sliceOf {α : Type} (start stop : Int) (l : List α) : List α :=
  (l.take (fromEnd l.length stop + 1).toNat).drop (fromEnd l.length start).toNat

/-- 前から高々 `limit` 個の等しい要素を取り除く。 -/
def removeFirst (target : Bytes) : Nat → List Bytes → List Bytes
  | 0, l => l
  | _ + 1, [] => []
  | limit + 1, a :: rest =>
    if a = target then removeFirst target limit rest
    else a :: removeFirst target (limit + 1) rest

/-- `count` が正なら前から、負なら後ろから、0 ならすべて取り除く。 -/
def removeMatches (target : Bytes) (count : Int) (l : List Bytes) : List Bytes :=
  if count = 0 then l.filter (· ≠ target)
  else oriented (decide (0 < count)) (removeFirst target count.natAbs
    (oriented (decide (0 < count)) l))

def insertAt (before : Bool) (position : Nat) (element : Bytes) (l : List Bytes) : List Bytes :=
  let index := if before then position else position + 1
  l.take index ++ element :: l.drop index

/-- 等しい要素の位置。`rank` が負なら後ろから見て、`|rank|` 番目のものから数える。見るのは高々 `maxlen` 個。 -/
def positionsOf (element : Bytes) (rank : Int) (count maxlen : Option Nat) (l : List Bytes) :
    List Nat :=
  let seen := oriented (decide (0 < rank)) l.zipIdx
  let compared := (maxlen.map fun n => seen.take n).getD seen
  let found := ((compared.filter fun p => p.1 = element).map Prod.snd).drop (rank.natAbs - 1)
  match count with
  | none => found.take 1
  | some 0 => found
  | some n => found.take n

def onList (absent : ListReply) (f : List Bytes → ListReply × List Bytes) :
    Visible (List Bytes) → ListReply × Visible (List Bytes)
  | .foreign e raw => (.failed wrongTypeError, .foreign e raw)
  | .missing => (absent, .missing)
  | .value e l => ((f l).1, ofItems e (f l).2)

def pushEnd (left : Bool) (value : Bytes) (l : List Bytes) : List Bytes :=
  if left then value :: l else l ++ [value]

abbrev ListViews := Bytes → Visible (List Bytes)

namespace ListViews

def modify (views : ListViews) (key : Bytes)
    (f : Visible (List Bytes) → ListReply × Visible (List Bytes)) : ListReply × ListViews :=
  ((f (views key)).1, update views key (f (views key)).2)

def receive (left : Bool) (value : Bytes) : Visible (List Bytes) → Visible (List Bytes)
  | .foreign e raw => .foreign e raw
  | .missing => .value 0 [value]
  | .value e l => .value e (pushEnd left value l)

def move (views : ListViews) (src dest : Bytes) (srcLeft destLeft : Bool) :
    ListReply × ListViews :=
  match views src with
  | .foreign _ _ => (.failed wrongTypeError, views)
  | .missing => (.element none, views)
  | .value e l =>
    let taken := popEnd srcLeft 1 l
    match taken.1 with
    | [] => (.element none, views)
    | value :: _ =>
      if src = dest then
        (.element (some value),
          update views src (.value e (pushEnd destLeft value taken.2)))
      else
        match views dest with
        | .foreign _ _ => (.failed wrongTypeError, views)
        | other => (.element (some value),
            update (update views src (ofItems e taken.2)) dest
              (receive destLeft value other))

end ListViews

namespace ListCommand

/-- ただの列の上の同じ命令。 -/
def spec : ListCommand → ListViews → ListReply × ListViews
  | push c, views => views.modify c.key fun v =>
    let out := listPushSpec (fun _ => wrongTypeError) c v
    (.of (fun n : Nat => .number n) out.1, out.2)
  | pop key left none, views => views.modify key <| onList (.element none) fun l =>
    (.element (popEnd left 1 l).1.head?, (popEnd left 1 l).2)
  | pop key left (some count), views => views.modify key <| onList (.elements []) fun l =>
    (.elements (popEnd left count l).1, (popEnd left count l).2)
  | set key i value, views => views.modify key <| onList (.failed "ERR no such key") fun l =>
    match indexIn l.length i with
    | none => (.failed "ERR index out of range", l)
    | some n => (.done, l.set n value.bytes)
  | trim key start stop, views => views.modify key <| onList .done fun l =>
    (.done, sliceOf start stop l)
  | rem key count element, views => views.modify key <| onList (.number 0) fun l =>
    let rest := removeMatches element.bytes count l
    (.number (l.length - rest.length), rest)
  | insert key before pivot element, views => views.modify key <| onList (.number 0) fun l =>
    match l.findIdx? (· = pivot.bytes) with
    | none => (.number (-1), l)
    | some n => (.number (l.length + 1), insertAt before n element.bytes l)
  | move src dest srcLeft destLeft, views => views.move src dest srcLeft destLeft
  | index key i, views => views.modify key <| onList (.element none) fun l =>
    (.element ((indexIn l.length i).bind fun n => l[n]?), l)
  | len key, views => views.modify key <| onList (.number 0) fun l => (.number l.length, l)
  | pos key element rank count maxlen, views => views.modify key <| onList (.positions []) fun l =>
    (.positions (positionsOf element.bytes rank count maxlen l), l)
  | range key start stop, views => views.modify key <| onList (.elements []) fun l =>
    (.elements (sliceOf start stop l), l)

end ListCommand

end Onedis.Store
