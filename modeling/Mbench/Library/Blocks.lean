import Mathlib.Data.List.TakeWhile

/-! Lists that are cut where a block starts. -/

namespace Mbench.Library

variable {Item : Type}

structure Block (Item : Type) where
  head : Item
  body : List Item
  deriving DecidableEq

def Block.items (block : Block Item) : List Item := block.head :: block.body

def blocks (starts : Item → Bool) : List Item → List (Block Item)
  | [] => []
  | item :: items =>
      if starts item then { head := item, body := items.takeWhile fun next => !starts next } :: blocks starts items
      else blocks starts items

end Mbench.Library
