/-!
Conventional numeric strengths: three tiers, each weighted a thousand times the one
below it. A strength that is not a number stays one.
-/
namespace NamedConstants.Strength

def clamp (upper value : Float) : Float :=
  if value.isNaN then value
  else if value ≤ 0 then 0
  else if upper ≤ value then upper
  else value

def tierLimit : Float := 1000

def ofTiers (strong medium weak weight : Float) : Float :=
  clamp tierLimit (strong * weight) * 1000000 + clamp tierLimit (medium * weight) * 1000 +
    clamp tierLimit (weak * weight)

def required : Float := ofTiers 1000 1000 1000 1

def strong : Float := ofTiers 1 0 0 1

def medium : Float := ofTiers 0 1 0 1

def weak : Float := ofTiers 0 0 1 1

def clip (value : Float) : Float := clamp required value

end NamedConstants.Strength
