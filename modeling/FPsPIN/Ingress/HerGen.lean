import Mathlib.Data.Fintype.Pi

/-!
# The pspin_her_gen block

Execution contexts latched from the control registers, and the request (HER)
built from a completed packet write. A tag carries the message id, the
end-of-message bit and the context id; a disabled context is replaced by the
default one. The bus slices of the configuration are indexed by context here.
-/

namespace FPsPIN.HerGen

/-- Constant HER_NUM_HANDLER_CTX. -/
def numHandlerCtx : Nat := 4

abbrev CtxId := Fin numHandlerCtx

def defaultCtxId : CtxId := ⟨0, by decide⟩

structure HerMeta where
  handlerMemAddr : BitVec 32
  handlerMemSize : BitVec 32
  hostMemAddr : BitVec 64
  hostMemSize : BitVec 32
  hhAddr : BitVec 32
  hhSize : BitVec 32
  phAddr : BitVec 32
  phSize : BitVec 32
  thAddr : BitVec 32
  thSize : BitVec 32
  scratchpadAddr : Fin 4 → BitVec 32
  scratchpadSize : Fin 4 → BitVec 32
deriving DecidableEq

def zeroMeta : HerMeta := ⟨0, 0, 0, 0, 0, 0, 0, 0, 0, 0, fun _ => 0, fun _ => 0⟩

/-- A completed packet write: signals gen_addr, gen_len and gen_tag. -/
structure Completion (addrWidth lenWidth tagWidth : Nat) where
  addr : BitVec addrWidth
  len : BitVec lenWidth
  tag : BitVec tagWidth
deriving DecidableEq

structure Her (msgidWidth addrWidth : Nat) where
  msgid : BitVec msgidWidth
  isEom : Bool
  addr : BitVec addrWidth
  size : BitVec addrWidth
  xferSize : BitVec addrWidth
  herMeta : HerMeta
deriving DecidableEq

structure Store where
  ctx : CtxId → HerMeta
  ctxEnabled : CtxId → Bool
deriving DecidableEq

/-- The configuration inputs, conf_valid first. -/
structure Conf where
  valid : Bool
  ctx : CtxId → HerMeta
  ctxEnabled : CtxId → Bool

def Store.init : Store := ⟨fun _ => zeroMeta, fun _ => false⟩

def Store.step (store : Store) (conf : Conf) : Store :=
  if conf.valid then ⟨conf.ctx, conf.ctxEnabled⟩ else store

section Decode

variable {tagWidth : Nat}

def decodeMsgid (msgidWidth : Nat) (tag : BitVec tagWidth) : BitVec msgidWidth := tag.extractLsb' 3 msgidWidth

def decodeIsEom (tag : BitVec tagWidth) : Bool := tag.getLsbD 2

def decodeCtxId (tag : BitVec tagWidth) : CtxId := ⟨tag.toNat % numHandlerCtx, Nat.mod_lt _ (by decide)⟩

end Decode

def Store.select {tagWidth : Nat} (store : Store) (tag : BitVec tagWidth) : CtxId :=
  if store.ctxEnabled (decodeCtxId tag) then decodeCtxId tag else defaultCtxId

def her {addrWidth lenWidth tagWidth : Nat} (msgidWidth : Nat) (store : Store)
    (gen : Completion addrWidth lenWidth tagWidth) : Her msgidWidth addrWidth where
  msgid := decodeMsgid msgidWidth gen.tag
  isEom := decodeIsEom gen.tag
  addr := gen.addr
  size := gen.len.setWidth addrWidth
  xferSize := gen.len.setWidth addrWidth
  herMeta := store.ctx (store.select gen.tag)

/-- Output gen_ready: the default context is set up and PsPIN is ready. -/
def genReady (store : Store) (herReady : Bool) : Bool := store.ctxEnabled defaultCtxId && herReady

end FPsPIN.HerGen
