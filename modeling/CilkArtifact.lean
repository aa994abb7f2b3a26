import CilkArtifact.DotMix.Util
import CilkArtifact.DotMix.Generator
import CilkArtifact.DotMix.Collision
import CilkArtifact.DotMix.DotProduct
import CilkArtifact.DotMix.Seed
import CilkArtifact.DotMix.Scope
import CilkArtifact.Library.Memory
import CilkArtifact.Cilksort.Quick
import CilkArtifact.Cilksort.Merge
import CilkArtifact.Cilksort.Sort
import CilkArtifact.Library.Segment
import CilkArtifact.Scan.ParallelScan
import CilkArtifact.Scan.Pack
import CilkArtifact.Harness.Runner
import CilkArtifact.Harness.Results
import CilkArtifact.Harness.Report
import CilkArtifact.Library.Loop
import CilkArtifact.Library.Triangular
import CilkArtifact.Lu.Block
import CilkArtifact.Lu.Recursive
import CilkArtifact.Library.Returns
import CilkArtifact.Library.Symmetric
import CilkArtifact.Cholesky.Block
import CilkArtifact.Cholesky.Quadtree
import CilkArtifact.Cholesky.Factor
import CilkArtifact.Cholesky.Symmetric
import CilkArtifact.Library.Buffer
import CilkArtifact.Cilkpub.Quicksort
import CilkArtifact.Cilkpub.Samplesort
import CilkArtifact.Cilkpub.Tree
import CilkArtifact.Cilkpub.Bins
import CilkArtifact.Cilkpub.Repack
import CilkArtifact.Library.Fourier
import CilkArtifact.Library.Strided
import CilkArtifact.Fft.Transform
import CilkArtifact.Fft.Tables
import CilkArtifact.Fft.Passes
import CilkArtifact.Fft.Correct
import CilkArtifact.Pedigree.OptPedigree
import CilkArtifact.Pedigree.Storage
import CilkArtifact.Library.CommonPrefix
import CilkArtifact.Library.Window
import CilkArtifact.Pedigree.Lifetime
import CilkArtifact.Pedigree.Order
import CilkArtifact.DotMix.Forward
import CilkArtifact.DotMix.FillBuffer
import CilkArtifact.Reducer.VectorView
import CilkArtifact.Reducer.OpaddArray
import CilkArtifact.Options.GetOptions
import CilkArtifact.Options.Order
import CilkArtifact.Strassen.Multiply
import CilkArtifact.Strassen.Kernel
import CilkArtifact.Strassen.Quadrants
import CilkArtifact.Strassen.Optimized
import CilkArtifact.Strassen.Prepare
import CilkArtifact.Strassen.Combine
import CilkArtifact.Strassen.Winograd
import CilkArtifact.Strassen.Overflow
import CilkArtifact.Pedigree.PedigreeScope
import CilkArtifact.Strassen.Verify
import CilkArtifact.Strassen.Workspace
import CilkArtifact.Cholesky.Heap
import CilkArtifact.Cholesky.Ownership
import CilkArtifact.Cholesky.Subtract
import CilkArtifact.Cholesky.Sparse
import CilkArtifact.Cholesky.Count
import CilkArtifact.Cilkpub.InPlace
import CilkArtifact.Cilksort.Independence
import CilkArtifact.Library.Stdio
import CilkArtifact.Cholesky.Reader
import CilkArtifact.Cholesky.MatrixFile
import CilkArtifact.Cholesky.Faithful
import CilkArtifact.Cholesky.Generate
import CilkArtifact.Cilkpub.Sampling
import CilkArtifact.Qsort.SampleQsort
import CilkArtifact.Lu.Phases
import CilkArtifact.Harness.CpuOrdering
import CilkArtifact.Library.CInt
import CilkArtifact.Matmul.Recursive
import CilkArtifact.Nqueens.Backtracking
import CilkArtifact.Rectmul.Block
import CilkArtifact.Rectmul.Recursive
import CilkArtifact.Heat.Stripes
import CilkArtifact.Heat.Steps
import CilkArtifact.Harness.TimingOutput
import CilkArtifact.Cilksort.Partition
import CilkArtifact.Freivalds.MatVecMul
import CilkArtifact.Rectmul.Area
import CilkArtifact.Runtime.Workers
import CilkArtifact.Runtime.Progress
import CilkArtifact.Runtime.CallParents
import CilkArtifact.Runtime.Reducers.Merge
import CilkArtifact.Runtime.CilkFor
import CilkArtifact.Runtime.Leftmost
import CilkArtifact.Connectivity.Labels
