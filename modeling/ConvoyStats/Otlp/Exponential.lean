import ConvoyStats.Otlp.ExpoIndex

/-!
# Exponential histograms

`exponential.go` and `exponential_merge.go`: the recording of observations into two
ranges of buckets whose scale is lowered as they grow, data points made of such
histograms, and histograms rebuilt from data points and merged.

Counts are natural numbers and sums are exact.  `scaleChange` is a loop that ends at
`expoMinScale`; the room left above that scale is what it recurses on.
-/

namespace ConvoyStats.Otlp

def expoMinScale : ℤ := -10

def expoMaxScale : ℤ := 20

def expoMinSize : ℤ := 2

/-- `expoBuckets`: `counts[i]` is the count of the bucket with index `offset + i`. -/
structure ExpoBuckets where
  offset : ℤ
  counts : List ℕ
  deriving DecidableEq, Repr

/-- The zero value. -/
def ExpoBuckets.empty : ExpoBuckets := ⟨0, []⟩

/-- `expoHistogram`. -/
structure ExpoHistogram where
  /-- The most buckets a range holds above `expoMinScale`. -/
  maxSize : ℤ
  scale : ℤ
  count : ℕ
  zeroCount : ℕ
  sum : ℚ
  min : ℚ
  max : ℚ
  /-- The buckets of positive values. -/
  positive : ExpoBuckets
  /-- The buckets of the magnitudes of negative values. -/
  negative : ExpoBuckets
  deriving DecidableEq

/-- One of the two ranges of a histogram. -/
inductive Side
  | positive
  | negative
  deriving DecidableEq

/-- `metricdata.ExponentialBucket`. -/
structure ExponentialBucket where
  offset : ℤ
  counts : List ℕ
  deriving DecidableEq, Repr

/-- What an exponential data point says about its observations. -/
structure ExpoValues where
  count : ℕ
  sum : ℚ
  scale : ℤ
  zeroCount : ℕ
  positiveBucket : ExponentialBucket
  negativeBucket : ExponentialBucket
  min : Option ℚ
  max : Option ℚ
  deriving DecidableEq

/-- The zero value. -/
def ExpoValues.zero : ExpoValues := ⟨0, 0, 0, 0, ⟨0, []⟩, ⟨0, []⟩, none, none⟩

/-! ### Ranges -/

namespace ExpoBuckets

/-- `downscale`: each run of `2 ^ change` adjacent buckets becomes one. -/
def downscale (b : ExpoBuckets) (change : ℕ) : ExpoBuckets :=
  if b.counts = [] then b
  else
    let offset := b.offset >>> change
    let last := (b.offset + b.counts.length - 1) >>> change
    let counts := b.counts.zipIdx.foldl
      (fun counts (count, i) =>
        counts.modify ((b.offset + (i : ℕ)) >>> change - offset).toNat (· + count))
      (List.replicate (last - offset + 1).toNat 0)
    ⟨offset, counts⟩

/-- The range of `add`, grown to include `index`. -/
def grow (b : ExpoBuckets) (index : ℤ) : ExpoBuckets :=
  if b.counts = [] then ⟨index, [0]⟩
  else if index < b.offset then
    ⟨index, List.replicate (b.offset - index).toNat 0 ++ b.counts⟩
  else if b.offset + b.counts.length ≤ index then
    ⟨b.offset, b.counts ++ List.replicate (index - b.offset - b.counts.length + 1).toNat 0⟩
  else b

/-- `add`. -/
def add (b : ExpoBuckets) (index : ℤ) (count : ℕ) : ExpoBuckets :=
  let b := b.grow index
  { b with counts := b.counts.modify (index - b.offset).toNat (· + count) }

end ExpoBuckets

/-- `bucketOffset`. -/
def bucketOffset (index : ℤ) : ℤ := if index < -2 ^ 31 ∨ 2 ^ 31 - 1 < index then 0 else index

def ExpoBuckets.snapshot (b : ExpoBuckets) : ExponentialBucket := ⟨bucketOffset b.offset, b.counts⟩

/-! ### Recording -/

/-- The loop of `scaleChange`: halve the range until it fits, while there is room
above `expoMinScale`. -/
def scaleChangeLoop (maxSize : ℤ) : ℕ → ℤ → ℤ → ℕ
  | 0, _, _ => 0
  | room + 1, low, high =>
    if maxSize ≤ high - low then
      scaleChangeLoop maxSize room (low >>> (1 : ℕ)) (high >>> (1 : ℕ)) + 1
    else 0

/-- `newExpoHistogram`. -/
def newExpoHistogram (maxSize maxScale : ℤ) : ExpoHistogram where
  maxSize := max maxSize expoMinSize
  scale := min (max maxScale expoMinScale) expoMaxScale
  count := 0
  zeroCount := 0
  sum := 0
  min := 0
  max := 0
  positive := .empty
  negative := .empty

namespace ExpoHistogram

def range (h : ExpoHistogram) : Side → ExpoBuckets
  | .positive => h.positive
  | .negative => h.negative

def setRange (h : ExpoHistogram) : Side → ExpoBuckets → ExpoHistogram
  | .positive, b => { h with positive := b }
  | .negative, b => { h with negative := b }

/-- `scaleChange`. -/
def scaleChange (h : ExpoHistogram) (b : ExpoBuckets) (index : ℤ) : ℕ :=
  if b.counts = [] then 0
  else
    let low := Min.min b.offset index
    let high := Max.max (b.offset + b.counts.length - 1) index
    scaleChangeLoop h.maxSize (h.scale - expoMinScale).toNat low high

/-- Both ranges lowered by `change`. -/
def lower (h : ExpoHistogram) (change : ℕ) : ExpoHistogram :=
  { h with
    scale := h.scale - change
    positive := h.positive.downscale change
    negative := h.negative.downscale change }

/-- `addCount`. -/
def addCount (h : ExpoHistogram) (side : Side) (index : ℤ) (count : ℕ) : ExpoHistogram :=
  if count = 0 then h
  else
    let change := h.scaleChange (h.range side) index
    if 0 < change then
      let h := h.lower change
      h.setRange side ((h.range side).add (index >>> change) count)
    else h.setRange side ((h.range side).add index count)

section

/-! The index function is a parameter: what recording comes to rests on nothing about
`expoIndex` but that it shifts with the scale.  The exporter records with `expoIndex`. -/

variable (index : ℚ → ℤ → ℤ)

/-- `recordBucket`. -/
def recordBucket (h : ExpoHistogram) (side : Side) (m : ℚ) : ExpoHistogram :=
  h.addCount side (index m h.scale) 1

/-- `record` of a finite value. -/
def record (h : ExpoHistogram) (v : ℚ) : ExpoHistogram :=
  let h := { h with
    min := if h.count = 0 ∨ v < h.min then v else h.min
    max := if h.count = 0 ∨ h.max < v then v else h.max
    count := h.count + 1
    sum := h.sum + v }
  if 0 < v then h.recordBucket index .positive v
  else if v < 0 then h.recordBucket index .negative (-v)
  else { h with zeroCount := h.zeroCount + 1 }

end

/-- `snapshot`. -/
def snapshot (h : ExpoHistogram) : ExpoValues where
  count := h.count
  sum := h.sum
  scale := h.scale
  zeroCount := h.zeroCount
  positiveBucket := h.positive.snapshot
  negativeBucket := h.negative.snapshot
  min := if 0 < h.count then some h.min else none
  max := if 0 < h.count then some h.max else none

/-! ### Merging -/

/-- `replay`: the buckets of `src`, whose indexes are at `srcScale`.  The scale may
drop on the way, so the shift is computed for every bucket. -/
def replay (h : ExpoHistogram) (dst : Side) (src : ExpoBuckets) (srcScale : ℤ) :
    ExpoHistogram :=
  src.counts.zipIdx.foldl
    (fun h (count, i) =>
      if count = 0 then h
      else h.addCount dst ((src.offset + (i : ℕ)) >>> (srcScale - h.scale).toNat) count) h

/-- One round of the loop of `mergeExpo`. -/
def absorb (h src : ExpoHistogram) : ExpoHistogram :=
  let h := h.replay .positive src.positive src.scale
  let h := h.replay .negative src.negative src.scale
  let h := { h with
    zeroCount := h.zeroCount + src.zeroCount
    count := h.count + src.count
    sum := h.sum + src.sum }
  if 0 < src.count then
    { h with
      min := if h.count = src.count ∨ src.min < h.min then src.min else h.min
      max := if h.count = src.count ∨ h.max < src.max then src.max else h.max }
  else h

end ExpoHistogram

/-- `mergeExpo`. -/
def mergeExpo (a b : ExpoHistogram) : ExpoHistogram :=
  let h := newExpoHistogram (min a.maxSize b.maxSize) (min a.scale b.scale)
  (h.absorb a).absorb b

/-- The loop of `expoHistogramFromPoint` over one range. -/
def ExpoHistogram.replayBucket (h : ExpoHistogram) (dst : Side) (src : ExponentialBucket)
    (srcScale : ℤ) : ExpoHistogram :=
  src.counts.zipIdx.foldl
    (fun h (count, i) =>
      h.addCount dst ((src.offset + (i : ℕ)) >>> (srcScale - h.scale).toNat) count) h

/-- `expoHistogramFromPoint`. -/
def expoHistogramFromPoint (dp : ExpoValues) (maxSize : ℤ) : ExpoHistogram :=
  let h := newExpoHistogram maxSize dp.scale
  let srcScale := h.scale
  let h := h.replayBucket .positive dp.positiveBucket srcScale
  let h := h.replayBucket .negative dp.negativeBucket srcScale
  let h := { h with zeroCount := dp.zeroCount, count := dp.count, sum := dp.sum }
  if 0 < dp.count then
    { h with min := dp.min.getD h.min, max := dp.max.getD h.max }
  else h

end ConvoyStats.Otlp
