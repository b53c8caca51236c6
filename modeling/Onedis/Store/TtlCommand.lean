import Onedis.Store.KeyTransfer
import Onedis.Store.TtlSweeper

/-!
# 期限のある record を書く command

main record と期限の index を書く command の遷移系。どの command も、record と index の entry を同じ batch に
載せるか、期限を変えずに record だけを書き直す。list の meta は record から読むとし、その cache は扱わない。
-/

namespace Onedis.Store

open Infra Codec

/-! ## 期限を変えない書き直し -/

def typedExpire (raw : Bytes) : Option UInt64 :=
  match decodeMetaHeader raw with
  | none => none
  | some hdr =>
    if hdr.typeTag = TypeTag.list.code then (decodeListMeta raw).map (·.expireMs)
    else if hdr.typeTag = TypeTag.stream.code then (decodeStreamMeta raw).map (·.expireMs)
    else some (.ofNat hdr.expireMs)

/-- main record に書く値。文字列と collection は、型と layout ごとの符号化で書く。 -/
inductive MainValue
  | stored (v : StoredValue)
  | vector (ver : UInt64) (body : Bytes)

namespace MainValue

def typeTag : MainValue → TypeTag
  | stored v => v.typeTag
  | vector .. => .vector

/-- 期限 `expireMs` を付けて書く。収まらない packed な値は書かれない。 -/
def encode (serde : Serde) (expireMs : UInt64) : MainValue → Option Bytes
  | stored v => v.encode serde expireMs
  | vector ver body => some (regular expireMs ver .vector body)

end MainValue

namespace Keyspace

/-- 書き換える collection の期限。別の型の key なら `none`。 -/
def keptExpire (s : Keyspace) (ref : DbKeyRef) (t : TypeTag) : Option UInt64 :=
  match s.main ref with
  | none => some 0
  | some raw =>
    if (decodeMetaHeader raw).any (·.typeTag = t.code) then typedExpire raw else none

/-- collection と整数の command。期限は変えない。JSON だけは index の entry も書き直す。 -/
def rewrite (serde : Serde) (s : Keyspace) (now : UInt64) (ref : DbKeyRef) (v : MainValue) :
    Keyspace :=
  let s := s.expireIfNeeded now ref
  match s.keptExpire ref v.typeTag with
  | none => s
  | some e =>
    match v.encode serde e with
    | none => s
    | some raw => s.write (.put ref raw :: if v.typeTag = .json then addToBatch e ref else [])

/-- `write_structure`。元の record と期限を置き換える。 -/
def overwrite (serde : Serde) (s : Keyspace) (ref : DbKeyRef) (v : MainValue) (expireMs : UInt64) :
    Keyspace :=
  match v.encode serde expireMs with
  | none => s
  | some raw => s.write (replaceToBatch ref (s.main ref) raw expireMs)

/-- 最後の要素を失った collection は、record も index の entry も消える。 -/
def discard (s : Keyspace) (now : UInt64) (ref : DbKeyRef) (t : TypeTag) : Keyspace :=
  let s := s.expireIfNeeded now ref
  match s.keptExpire ref t with
  | none => s
  | some e => s.write (deleteMainKeyWithTtlToBatch ref e)

/-- `insert_string_byte_keys_async` の一件。 -/
def plainSet (s : Keyspace) (ref : DbKeyRef) (value : Bytes) : Keyspace :=
  s.write (plainSetToBatch ref value (s.main ref))

/-- sweeper が一つの entry について行う書き込み。 -/
def sweep (s : Keyspace) (expireMs : UInt64) (ref : DbKeyRef) : Keyspace :=
  s.write (expirePlan ⟨expireMs.toNat, ref.dbIndex.toNat, ref.key⟩ (s.main ref))

/-- `FLUSHDB`。db の record と index をすべて消す。 -/
def flush (s : Keyspace) (db : UInt16) : Keyspace :=
  { s with
    main := fun ref => if ref.dbIndex = db then none else s.main ref
    index := fun key => s.index key && !(ttlDbPrefix db.toNat).isPrefixOf key
    sub := fun ref => if ref.dbIndex = db then fun _ _ _ => none else s.sub ref }

end Keyspace

/-! ## command -/

/-- main record か期限の index を書く command。 -/
inductive TtlCommand
  | set (ref : DbKeyRef) (value : Bytes) (expiration : SetExpiration) (condition : SetCondition)
      (returnOld : Bool)
  | plainSet (ref : DbKeyRef) (value : Bytes)
  | mutate (ref : DbKeyRef) (mutation : Bytes → Except String (Unit × Bytes × Bool))
  | getdel (ref : DbKeyRef)
  | getex (ref : DbKeyRef) (update : StringExpireUpdate)
  | stringBatch (db : UInt16) (ms : List StringBatchMutation)
  | rewrite (ref : DbKeyRef) (v : MainValue)
  | discard (ref : DbKeyRef) (t : TypeTag)
  | overwrite (ref : DbKeyRef) (v : MainValue) (expireMs : UInt64)
  | expire (ref : DbKeyRef) (ttlMs : UInt64) (condition : ExpireCondition)
  | persist (ref : DbKeyRef)
  | expireBatch (db : UInt16) (ms : List KeyExpirationMutation)
  | transfer (command : TransferCommand)
  | delete (db : UInt16) (keys : List Bytes)
  | expireIfNeeded (ref : DbKeyRef)
  | sweep (expireMs : UInt64) (ref : DbKeyRef)
  | flush (db : UInt16)

/-- 時刻 `now` に実行する一つの command。`floor` は version の下限である。 -/
structure TtlEvent where
  now : UInt64
  floor : UInt64
  command : TtlCommand

/-- 一つの command。version の counter が尽きた COPY と MOVE と RENAME は `none` になる。 -/
def TtlEvent.step (serde : Serde) (s : Keyspace) (ev : TtlEvent) : Option Keyspace :=
  let now := ev.now
  match ev.command with
  | .set ref value expiration condition returnOld =>
    some (s.setStringBytes now ref value expiration condition returnOld).2
  | .plainSet ref value => some (s.plainSet ref value)
  | .mutate ref mutation => some (s.mutateStringBytesIfChanged now ref mutation).2
  | .getdel ref => some (s.getdelStringBytes now ref).2
  | .getex ref update => some (s.getexStringBytes now ref update).2
  | .stringBatch db ms => some (s.applyStringBatchMutations now db ms).2
  | .rewrite ref v => some (s.rewrite serde now ref v)
  | .discard ref t => some (s.discard now ref t)
  | .overwrite ref v expireMs => some (s.overwrite serde ref v expireMs)
  | .expire ref ttlMs condition => some (s.expireWithCondition now ref ttlMs condition).2
  | .persist ref => some (s.persist now ref).2
  | .expireBatch db ms => some (s.applyKeyExpirationBatch now db ms).2
  | .transfer command => (command.exec s now ev.floor).map Prod.snd
  | .delete db keys => some (s.deleteKeys now db keys).2
  | .expireIfNeeded ref => some (s.expireIfNeeded now ref)
  | .sweep expireMs ref => some (s.sweep expireMs ref)
  | .flush db => some (s.flush db)

/-! ## 読み間違えられない値と期限 -/

/-- `GETEX` が書く期限。 -/
def StringExpireUpdate.expireMs (update : StringExpireUpdate) (now : UInt64) : UInt64 :=
  match update with
  | .persist => 0
  | .relativeMs ttlMs => saturatingAdd now ttlMs
  | .absoluteMs expireMs => expireMs

/-- どの長さの record に付けても、list や stream の meta と見分けのつく期限。 -/
def PlainExpire (e : UInt64) : Prop := ∀ length, ¬ MagicClash e length

/-- packed な list と見分けのつく meta。位置や ID が `2 ^ 56` より小さければよい。 -/
def MainValue.Ordinary : MainValue → Prop
  | stored (.listMeta _ head _) => (beI64 head).head? ≠ some 0x01
  | stored (.streamMeta _ lastId _ _) => (beU64 lastId.ms).head? ≠ some 0x01
  | _ => True

/-- command の与える期限と値が、どれも読み間違えられない。 -/
def TtlEvent.Plain (ev : TtlEvent) : Prop :=
  match ev.command with
  | .set _ _ expiration _ _ => ∀ e, expiration = .at e → PlainExpire e
  | .getex _ update => PlainExpire (update.expireMs ev.now)
  | .stringBatch _ ms => ∀ key ttlMs value pos, .psetex key ttlMs value pos ∈ ms →
      PlainExpire (saturatingAdd ev.now ttlMs)
  | .rewrite _ v => v.Ordinary
  | .overwrite _ v expireMs => v.Ordinary ∧ PlainExpire expireMs
  | .expire _ ttlMs _ => PlainExpire (saturatingAdd ev.now ttlMs)
  | .expireBatch _ ms => ∀ key ttlMs, .expire key ttlMs ∈ ms →
      PlainExpire (saturatingAdd ev.now ttlMs)
  | _ => True

end Onedis.Store
